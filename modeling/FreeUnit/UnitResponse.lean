/-
How the application library builds a response
(`nxt_unit_response_init`, `_realloc`, `_add_field`, `_add_content`).

The response is built in the buffer it will be sent in: a head, a table with
room for the announced number of fields, and behind it the names, the values and
the first of the content, which the records of the table point to.

* `run_encodes` — after any calls that succeed, it holds what they built.
-/
import FreeUnit.UnitWire
import FreeUnit.FieldTable

namespace FreeUnit.UnitResponse

open List Option

/-! ### The calls -/

/-- `NXT_UNIT_RS_*` -/
inductive ReqState
  | start | responseInit | responseHasContent | responseSent | released
  deriving DecidableEq, Repr

def ReqState.rank : ReqState → ℕ
  | .start => 0
  | .responseInit => 1
  | .responseHasContent => 2
  | .responseSent => 3
  | .released => 4

/-- The buffer of a response, up to `buf->free`: the head, the table and the
bytes behind it.  `size` is `buf->end - buf->start`, and the table has
`response_max_fields` records. -/
structure Buf where
  head : ResponseHead
  table : List UnitField
  data : Bytes
  size : ℕ

namespace Buf

def base (b : Buf) : ℕ := ResponseHead.size + UnitField.size * b.table.length

/-- `buf->free`. -/
def free (b : Buf) : ℕ := b.base + b.data.length

/-- `(uint32_t) (buf->end - buf->free)`. -/
def room (b : Buf) : ℕ := b.size - b.free

def bytes (b : Buf) : Bytes := b.head.bytes ++ (b.table.flatMap UnitField.bytes ++ b.data)

end Buf

def fieldPos (i : ℕ) : ℕ := ResponseHead.size + UnitField.size * i

/-- The response of a request: its state, and `response_buf` with what it
holds. -/
structure Req where
  state : ReqState
  response : Option Buf

/-- What the allocation of a buffer gives: nothing, or memory that is not
cleared, as which the records of the table show what it holds. -/
abbrev Memory := Option (ℕ → UnitField)

/-- The outcome of a call.  `overrun` is a copy that would go beyond the end of
the buffer. -/
inductive Outcome
  | ok (req : Req)
  | error (req : Req)
  | overrun

def plainAlloc : ℕ := 1024 - 16

def maxPlainSize : ℕ := 1024

def chunkSize : ℕ := 1024 * 16

def dataSize : ℕ := 1024 * 1024 * 10

/-- `nxt_unit_response_buf_size`; `none` if the size overflows. -/
def responseBufSize (maxFieldsCount maxFieldsSize : UInt32) : Option ℕ :=
  if maxFieldsCount.toNat > (2 ^ 32 - 1 - ResponseHead.size) / (UnitField.size + 2) then none
  else
    let total := ResponseHead.size + maxFieldsCount.toNat * (UnitField.size + 2)
    if maxFieldsSize.toNat > 2 ^ 32 - 1 - total then none else some (total + maxFieldsSize.toNat)

/-- `nxt_unit_response_buf_alloc`: a buffer that could be sent as a plain
message gets what it asked for, another one whole chunks. -/
def responseBufAlloc (size : ℕ) (mem : Memory) : Option (ℕ × (ℕ → UnitField)) :=
  if size > dataSize then none
  else
    mem.map fun junk =>
      (if size ≤ maxPlainSize then size else (size + chunkSize - 1) / chunkSize * chunkSize, junk)

def emptyBuf (status : UInt16) (maxFieldsCount : UInt32) (size : ℕ) (junk : ℕ → UnitField) : Buf where
  head := { status := status }
  table := (List.range maxFieldsCount.toNat).map junk
  data := []
  size := size

/-- A small response gets as much as a plain message can carry. -/
def atLeastPlain (size : ℕ) : ℕ := if size < plainAlloc then plainAlloc else size

/-- `nxt_unit_response_init` with a new buffer. -/
def initFresh (req : Req) (status : UInt16) (maxFieldsCount : UInt32) (size : ℕ) (mem : Memory) :
    Outcome :=
  match responseBufAlloc size mem with
  | none => .error req
  | some (cap, junk) => .ok ⟨.responseInit, some (emptyBuf status maxFieldsCount cap junk)⟩

/-- `nxt_unit_response_init`.  A buffer that is large enough is cleared and used
again; `junk` is what its memory shows as records of the new table. -/
def responseInit (req : Req) (status : UInt16) (maxFieldsCount maxFieldsSize : UInt32)
    (junk : ℕ → UnitField) (mem : Memory) : Outcome :=
  if req.state.rank ≥ ReqState.responseSent.rank then .error req
  else
    match responseBufSize maxFieldsCount maxFieldsSize with
    | none => .error req
    | some size =>
      match req.response with
      | some b =>
        if atLeastPlain size ≤ b.size then
          .ok ⟨.responseInit, some (emptyBuf status maxFieldsCount b.size junk)⟩
        else initFresh ⟨.start, none⟩ status maxFieldsCount (atLeastPlain size) mem
      | none => initFresh req status maxFieldsCount (atLeastPlain size) mem

/-- The record of a field whose name and value are put at the end of the
data; only the flag `skip` of what was there is cleared. -/
def record (b : Buf) (i : ℕ) (hash : UInt16) (flags : UInt8) (nameLength : UInt8)
    (valueLength : UInt32) : UnitField where
  hash := hash
  flags := flags &&& 0xFE
  nameLength := nameLength
  valueLength := valueLength
  name := sptrSet (fieldPos i + 8) b.free
  value := sptrSet (fieldPos i + 12) (b.free + nameLength.toNat + 1)

/-- One more field, with the bytes of its name and value. -/
def putField (b : Buf) (hash : UInt16) (nameLength : UInt8) (valueLength : UInt32)
    (name value : Bytes) : Buf :=
  let i := b.head.fieldsCount.toNat
  let flags := (b.table[i]?.map (·.flags)).getD 0
  { b with
    head := { b.head with fieldsCount := b.head.fieldsCount + 1 }
    table := b.table.set i (record b i hash flags nameLength valueLength)
    data := b.data ++ (name ++ 0 :: (value ++ [0])) }

/-- `nxt_unit_response_add_field`.  The sum of the lengths is one of 32 bits. -/
def addField (req : Req) (name value : Bytes) : Outcome :=
  if req.state ≠ .responseInit then .error req
  else
    match req.response with
    | none => .error req
    | some b =>
      let need := name.length + value.length + 2
      if b.head.fieldsCount.toNat ≥ b.table.length then .error req
      else if need % 2 ^ 32 > b.room then .error req
      else if need > b.room then .overrun
      else
        .ok { req with
          response := some (putField b (httpFieldHash name) (UInt8.ofNat name.length)
            (UInt32.ofNat value.length) name value) }

/-- The buffer with the first of the content, or with more of it. -/
def putContent (b : Buf) (src : Bytes) : Buf :=
  { b with
    head := { b.head with
      piggybackContent :=
        if b.head.piggybackContentLength == 0 then sptrSet 20 b.free else b.head.piggybackContent
      piggybackContentLength := b.head.piggybackContentLength + UInt32.ofNat src.length }
    data := b.data ++ src }

def addContent (req : Req) (src : Bytes) : Outcome :=
  if req.state.rank < ReqState.responseInit.rank then .error req
  else if req.state.rank ≥ ReqState.responseSent.rank then .error req
  else
    match req.response with
    | none => .error req
    | some b =>
      if src.length > b.room then .error req
      else
        .ok {
          state :=
            if b.head.piggybackContentLength == 0 then .responseHasContent else req.state
          response := some (putContent b src) }

def Buf.string (b : Buf) (base : ℕ) (offset : UInt32) (length : ℕ) : Bytes :=
  slice b.bytes (sptrGet base offset) length

/-- The loop of `nxt_unit_response_realloc`: field `i` of `old`. -/
def copyField (old new : Buf) (i : ℕ) : Option Buf :=
  match old.table[i]? with
  | none => some new
  | some src =>
    if src.skip then some new
    else if (src.nameLength.toNat + src.valueLength.toNat + 2) % 2 ^ 32 > new.room then none
    else
      some (putField new src.hash src.nameLength src.valueLength
        (old.string (fieldPos i + 8) src.name src.nameLength.toNat)
        (old.string (fieldPos i + 12) src.value src.valueLength.toNat))

/-- The end of `nxt_unit_response_realloc`. -/
def copyContent (old new : Buf) : Option Buf :=
  let length := old.head.piggybackContentLength
  if length.toNat > 0 then
    if length.toNat > new.room then none
    else
      some { new with
        head := { new.head with
          piggybackContentLength := length
          piggybackContent := sptrSet 20 new.free }
        data := new.data ++ old.string 20 old.head.piggybackContent length.toNat }
  else some new

def responseRealloc (req : Req) (maxFieldsCount maxFieldsSize : UInt32) (mem : Memory) : Outcome :=
  if req.state.rank < ReqState.responseInit.rank then .error req
  else if req.state.rank ≥ ReqState.responseSent.rank then .error req
  else
    match req.response with
    | none => .error req
    | some old =>
      if maxFieldsCount < old.head.fieldsCount then .error req
      else
        match responseBufSize maxFieldsCount maxFieldsSize with
        | none => .error req
        | some size =>
          match responseBufAlloc (atLeastPlain size) mem with
          | none => .error req
          | some (cap, junk) =>
            let empty := emptyBuf old.head.status maxFieldsCount cap junk
            let empty := { empty with
              head := { empty.head with contentLength := old.head.contentLength } }
            match (List.range old.head.fieldsCount.toNat).foldlM (copyField old) empty with
            | none => .error req
            | some new =>
              match copyContent old new with
              | none => .error req
              | some new => .ok { req with response := some new }

/-- A call of the application, with what its environment answers.  Lengths are
of the types of the arguments. -/
inductive Call
  | init (status : UInt16) (maxFieldsCount maxFieldsSize : UInt32) (junk : ℕ → UnitField)
      (mem : Memory)
  | realloc (maxFieldsCount maxFieldsSize : UInt32) (mem : Memory)
  | addField (name value : Bytes) (hname : name.length < 2 ^ 8) (hvalue : value.length < 2 ^ 32)
  | addContent (src : Bytes) (hsize : src.length < 2 ^ 32)

def call (req : Req) : Call → Outcome
  | .init status maxFieldsCount maxFieldsSize junk mem =>
    responseInit req status maxFieldsCount maxFieldsSize junk mem
  | .realloc maxFieldsCount maxFieldsSize mem =>
    responseRealloc req maxFieldsCount maxFieldsSize mem
  | .addField name value _ _ => UnitResponse.addField req name value
  | .addContent src _ => UnitResponse.addContent req src

def run (req : Req) : List Call → Option Req
  | [] => some req
  | c :: calls =>
    match call req c with
    | .ok req => run req calls
    | .error _ => none
    | .overrun => none

def Req.new : Req := ⟨.start, none⟩

/-! ### What the calls build -/

structure Draft where
  status : UInt16
  fields : List (Bytes × Bytes)
  content : Bytes

/-- What a call that succeeds does to it; only the first `init` makes one. -/
def Draft.after : Option Draft → Call → Option Draft
  | _, .init status _ _ _ _ => some ⟨status, [], []⟩
  | d, .realloc _ _ _ => d
  | d, .addField name value _ _ => d.map fun d => { d with fields := d.fields ++ [(name, value)] }
  | d, .addContent src _ => d.map fun d => { d with content := d.content ++ src }

def draft (calls : List Call) : Option Draft := calls.foldl Draft.after none

abbrev DataAt (b : Buf) : ℕ → Bytes → Prop := StringAt b.base b.data

/-- Record `i` of the table is a field. -/
structure Entry (b : Buf) (i : ℕ) (field : Bytes × Bytes) (u : UnitField) : Prop where
  at_eq : b.table[i]? = some u
  skip : u.skip = false
  hash : u.hash = httpFieldHash field.1
  nameLength : u.nameLength.toNat = field.1.length
  valueLength : u.valueLength.toNat = field.2.length
  name : DataAt b (sptrGet (fieldPos i + 8) u.name) field.1
  value : DataAt b (sptrGet (fieldPos i + 12) u.value) field.2

structure HoldsFields (b : Buf) (fields : List (Bytes × Bytes)) : Prop where
  fits : b.free ≤ b.size
  small : b.size < 2 ^ 31
  count : b.head.fieldsCount.toNat = fields.length
  le : fields.length ≤ b.table.length
  entry : ∀ i field, fields[i]? = some field → ∃ u, Entry b i field u

/-- **The buffer holds the draft.** -/
structure Encodes (b : Buf) (d : Draft) : Prop extends HoldsFields b d.fields where
  status : b.head.status = d.status
  length : b.head.piggybackContentLength.toNat = d.content.length
  content : d.content ≠ [] →
    DataAt b (sptrGet 20 b.head.piggybackContent) d.content ∧
      sptrGet 20 b.head.piggybackContent + d.content.length = b.free

/-! ### Reading the buffer -/

theorem Buf.length_bytes (b : Buf) : b.bytes.length = b.free := by
  rw [Buf.bytes, length_append, length_append, ResponseHead.length_bytes,
    length_flatMap_const UnitField.length_bytes, Buf.free, Buf.base, Nat.add_assoc]

theorem Buf.slice_head (b : Buf) : slice b.bytes 0 ResponseHead.size = b.head.bytes :=
  slice_zero (ResponseHead.length_bytes b.head) _

variable {b : Buf} {i : ℕ} {mem : Memory} {maxFieldsCount maxFieldsSize : UInt32} {req req' : Req}
  {od : Option Draft} {d : Draft}

variable {u : UnitField}

theorem Buf.slice_field (h : b.table[i]? = some u) :
    slice b.bytes (fieldPos i) UnitField.size = u.bytes := by
  have hlt : i < b.table.length := (List.getElem?_eq_some_iff.mp h).1
  have hin : UnitField.size * i + UnitField.size ≤ (b.table.flatMap UnitField.bytes).length := by
    rw [length_flatMap_const UnitField.length_bytes, ← Nat.mul_succ]
    exact Nat.mul_le_mul_left _ hlt
  rw [Buf.bytes, fieldPos, slice_append_right (ResponseHead.length_bytes b.head),
    slice_append_left hin, slice_flatMap UnitField.length_bytes h]

variable {pos : ℕ} {s : Bytes}

theorem DataAt.le_free (h : DataAt b pos s) : pos + s.length ≤ b.free := StringAt.le h

theorem Buf.slice_data (h : DataAt b pos s) : slice b.bytes pos s.length = s := by
  have hbase : (b.head.bytes ++ b.table.flatMap UnitField.bytes).length = b.base := by
    rw [length_append, ResponseHead.length_bytes, length_flatMap_const UnitField.length_bytes,
      Buf.base]
  have hslice := h.slice_memory hbase []
  rwa [append_nil, append_assoc] at hslice

/-! ### One more field -/

/-- The records of the table are before the data. -/
theorem Buf.fieldPos_le (h : i < b.table.length) : fieldPos i + 16 ≤ b.base := by
  unfold fieldPos Buf.base UnitField.size
  omega

variable {fields : List (Bytes × Bytes)}

section PutField

variable {b : Buf} {nameLength : UInt8} {valueLength : UInt32} {name value : Bytes}

theorem base_putField (hash : UInt16) :
    (putField b hash nameLength valueLength name value).base = b.base := by
  simp [putField, Buf.base]

theorem free_putField (hash : UInt16) : (putField b hash nameLength valueLength name value).free =
      b.free + (name.length + value.length + 2) := by
  rw [Buf.free, base_putField, Buf.free, putField]
  simp only [length_append, length_cons, length_nil]
  omega

theorem entry_putField (hn : nameLength.toNat = name.length) (hv : valueLength.toNat = value.length)
    (hi : b.head.fieldsCount.toNat < b.table.length)
    (hfit : b.free + (name.length + value.length + 2) < 2 ^ 32) :
    ∃ u, Entry (putField b (httpFieldHash name) nameLength valueLength name value)
      b.head.fieldsCount.toNat (name, value) u := by
  have hpos := Buf.fieldPos_le hi
  have hfree : b.base ≤ b.free := Nat.le_add_right _ _
  have hname : sptrGet (fieldPos b.head.fieldsCount.toNat + 8)
      (sptrSet (fieldPos b.head.fieldsCount.toNat + 8) b.free) = b.free :=
    sptrGet_sptrSet (by omega) (by omega)
  have hvalue : sptrGet (fieldPos b.head.fieldsCount.toNat + 12)
      (sptrSet (fieldPos b.head.fieldsCount.toNat + 12) (b.free + nameLength.toNat + 1)) =
        b.free + nameLength.toNat + 1 :=
    sptrGet_sptrSet (by omega) (by omega)
  refine ⟨record b b.head.fieldsCount.toNat (httpFieldHash name)
    ((b.table[b.head.fieldsCount.toNat]?.map (·.flags)).getD 0) nameLength valueLength,
    ?_, ?_, rfl, hn, hv, ?_, ?_⟩
  · simp [putField, hi]
  · have hclear : ∀ flags : UInt8, (flags &&& 0xFE &&& 1 != 0) = false := by decide +kernel
    exact hclear _
  · have h : DataAt (putField b (httpFieldHash name) nameLength valueLength name value)
        (b.free + ([] : Bytes).length) name := by
      rw [DataAt, base_putField]
      exact StringAt.put b.base b.data [] name _
    show DataAt _ (sptrGet _ (sptrSet _ _)) name
    rw [hname]
    exact h
  · have hdata : (putField b (httpFieldHash name) nameLength valueLength name value).data =
        b.data ++ ((name ++ [0]) ++ (value ++ [0])) := by
      simp [putField]
    have h := StringAt.put b.base b.data (name ++ [0]) value [0]
    rw [← hdata, length_append] at h
    show DataAt _ (sptrGet _ (sptrSet _ _)) value
    rw [hvalue, hn, Nat.add_assoc, DataAt, base_putField]
    exact h

/-- **One more field.** -/
theorem HoldsFields.putField (h : HoldsFields b fields) (hn : nameLength.toNat = name.length)
    (hv : valueLength.toNat = value.length) (hi : fields.length < b.table.length)
    (hroom : name.length + value.length + 2 ≤ b.room) :
    HoldsFields (putField b (httpFieldHash name) nameLength valueLength name value)
      (fields ++ [(name, value)]) := by
  have hfits := h.fits
  have hsmall := h.small
  have hcount := h.count
  have hroom' : name.length + value.length + 2 ≤ b.size - b.free := hroom
  have hlen : (UnitResponse.putField b (httpFieldHash name) nameLength valueLength name value).table.length =
      b.table.length := by simp [UnitResponse.putField]
  have hbase := Buf.fieldPos_le hi
  have hcap : b.table.length < 2 ^ 32 := by
    have : b.base ≤ b.free := Nat.le_add_right _ _
    unfold Buf.base UnitField.size at this
    omega
  refine ⟨?_, hsmall, ?_, ?_, ?_⟩
  · rw [free_putField]
    show _ ≤ b.size
    omega
  · show (b.head.fieldsCount + 1).toNat = _
    rw [UInt32.toNat_add, hcount, length_append]
    exact Nat.mod_eq_of_lt (by simp; omega)
  · rw [hlen, length_append]
    exact hi
  · intro i field hfield
    rcases Nat.lt_trichotomy i fields.length with hlt | rfl | hgt
    · -- an entry that was there
      rw [getElem?_append_left hlt] at hfield
      obtain ⟨u, hu⟩ := h.entry i field hfield
      refine ⟨u, ?_, hu.skip, hu.hash, hu.nameLength, hu.valueLength, ?_, ?_⟩
      · show (b.table.set b.head.fieldsCount.toNat _)[i]? = some u
        rw [getElem?_set_ne (by omega)]
        exact hu.at_eq
      · rw [DataAt, base_putField]
        exact hu.name.extend _
      · rw [DataAt, base_putField]
        exact hu.value.extend _
    · rw [getElem?_append_right (le_refl _), Nat.sub_self] at hfield
      cases hfield
      rw [← hcount]
      exact entry_putField hn hv (by omega) (by omega)
    rw [getElem?_eq_none (by simp; omega)] at hfield
    cases hfield

end PutField

/-! ### One call -/

variable {cap : ℕ} {junk : ℕ → UnitField}

variable {size : ℕ}

/-- The buffer that an allocation gives is large enough, and its size is far
below what 32 bits hold. -/
theorem responseBufAlloc_some (h : responseBufAlloc size mem = some (cap, junk)) :
    size ≤ cap ∧ cap < 2 ^ 31 := by
  unfold responseBufAlloc at h
  split at h
  · cases h
  rename_i hsize
  obtain ⟨_, _, hpair⟩ := map_eq_some_iff.mp h
  obtain ⟨rfl, -⟩ := Prod.mk.inj hpair
  unfold dataSize at hsize
  split
  · omega
  unfold chunkSize
  omega

variable {total : ℕ}

theorem responseBufSize_some {count : ℕ} (hcount : maxFieldsCount.toNat = count)
    (hsize : maxFieldsSize.toNat = size)
    (h : responseBufSize maxFieldsCount maxFieldsSize = some total) :
    total = ResponseHead.size + count * (UnitField.size + 2) + size := by
  unfold responseBufSize at h
  rw [hcount, hsize] at h
  split at h
  · cases h
  dsimp only at h
  split at h
  · cases h
  · exact (some.inj h).symm

/-- An empty response fits into a buffer of the size computed for it. -/
theorem fits_emptyBuf (h : responseBufSize maxFieldsCount maxFieldsSize = some total)
    (hcap : atLeastPlain total ≤ cap) (status : UInt16) (junk : ℕ → UnitField) :
    (emptyBuf status maxFieldsCount cap junk).free ≤ cap := by
  have htotal := responseBufSize_some rfl rfl h
  have hfree : (emptyBuf status maxFieldsCount cap junk).free =
      ResponseHead.size + UnitField.size * maxFieldsCount.toNat := by
    simp [Buf.free, Buf.base, emptyBuf]
  have hle : total ≤ cap := by
    unfold atLeastPlain at hcap
    split at hcap
    · omega
    · exact hcap
  rw [hfree]
  unfold UnitField.size at htotal ⊢
  omega

variable {status : UInt16}

theorem encodes_emptyBuf (hfits : (emptyBuf status maxFieldsCount cap junk).free ≤ cap)
    (hcap : cap < 2 ^ 31) : Encodes (emptyBuf status maxFieldsCount cap junk) ⟨status, [], []⟩ where
  fits := hfits
  small := hcap
  count := rfl
  le := Nat.zero_le _
  entry i field h := by simp at h
  status := rfl
  length := rfl
  content h := absurd rfl h

/-- The state of a request whose calls have built a draft. -/
inductive Building : Req → Option Draft → Prop
  | none : Building ⟨.start, none⟩ none
  | some {st : ReqState} {b : Buf} {d : Draft} (h : Encodes b d)
      (hst : st = .responseInit ∧ d.content = [] ∨ st = .responseHasContent) :
      Building ⟨st, some b⟩ (some d)

theorem initFresh_building (htotal : responseBufSize maxFieldsCount maxFieldsSize = some total)
    (hok : initFresh req status maxFieldsCount (atLeastPlain total) mem = .ok req') :
    Building req' (some ⟨status, [], []⟩) := by
  unfold initFresh at hok
  split at hok
  · cases hok
  rename_i cap junk halloc
  obtain ⟨hle, hlt⟩ := responseBufAlloc_some halloc
  cases hok
  exact .some (encodes_emptyBuf (fits_emptyBuf htotal hle _ _) hlt) (.inl ⟨rfl, rfl⟩)

theorem responseInit_building (h : Building req od)
    (hok : responseInit req status maxFieldsCount maxFieldsSize junk mem = .ok req') :
    Building req' (some ⟨status, [], []⟩) := by
  unfold responseInit at hok
  split at hok
  · cases hok
  split at hok
  · cases hok
  rename_i total htotal
  cases h with
  | none => exact initFresh_building htotal hok
  | some h hst => ?_
  dsimp only at hok
  split at hok
  · rename_i hle
    cases hok
    exact .some (encodes_emptyBuf (fits_emptyBuf htotal hle _ _) h.small) (.inl ⟨rfl, rfl⟩)
  · exact initFresh_building htotal hok

/-- A copy goes beyond the end of the buffer only if the sum of the lengths
overflows. -/
theorem addField_overrun {name value : Bytes} (h : addField req name value = .overrun) :
    2 ^ 32 ≤ name.length + value.length + 2 := by
  unfold addField at h
  split at h
  · cases h
  split at h
  · cases h
  dsimp only at h
  split at h
  · cases h
  split at h
  · cases h
  rename_i hcheck
  split at h
  · rename_i hneed
    by_contra hlt
    rw [Nat.mod_eq_of_lt (not_le.mp hlt)] at hcheck
    exact hcheck hneed
  · cases h

theorem addField_building (h : Building req od)
    {name value : Bytes} (hname : name.length < 2 ^ 8) (hvalue : value.length < 2 ^ 32)
    (hok : addField req name value = .ok req') :
    Building req' (od.map fun d => { d with fields := d.fields ++ [(name, value)] }) := by
  unfold addField at hok
  split at hok
  · cases hok
  rename_i hstate
  cases h with
  | none => cases hok
  | @some st b d h hst => ?_
  dsimp only at hok hstate
  split at hok
  · cases hok
  rename_i hcount
  split at hok
  · cases hok
  split at hok
  · cases hok
  rename_i hroom
  cases hok
  have hst' : st = .responseInit := not_not.mp hstate
  have hcontent : d.content = [] := by
    rcases hst with ⟨-, hc⟩ | hst
    · exact hc
    rw [hst] at hst'
    cases hst'
  have hn : (UInt8.ofNat name.length).toNat = name.length := by
    rw [UInt8.toNat_ofNat']
    exact Nat.mod_eq_of_lt hname
  have hv : (UInt32.ofNat value.length).toNat = value.length := by
    rw [UInt32.toNat_ofNat']
    exact Nat.mod_eq_of_lt hvalue
  have hlt : d.fields.length < b.table.length := by
    have := h.count
    omega
  have hfields := h.toHoldsFields.putField hn hv hlt (not_lt.mp hroom)
  refine .some ⟨hfields, h.status, h.length, fun hne => absurd hcontent hne⟩
    (.inl ⟨hst', hcontent⟩)

theorem HoldsFields.extend {b' : Buf} {more : Bytes} (h : HoldsFields b fields)
    (hcount : b'.head.fieldsCount = b.head.fieldsCount) (htable : b'.table = b.table)
    (hdata : b'.data = b.data ++ more) (hsize : b'.size = b.size) (hroom : more.length ≤ b.room) :
    HoldsFields b' fields := by
  have hbase : b'.base = b.base := by rw [Buf.base, htable, Buf.base]
  have hfits := h.fits
  unfold Buf.room at hroom
  refine ⟨?_, hsize ▸ h.small, hcount ▸ h.count, htable ▸ h.le, fun i field hfield => ?_⟩
  · rw [Buf.free, hbase, hdata, length_append, hsize]
    unfold Buf.free at hfits hroom
    omega
  · obtain ⟨u, hu⟩ := h.entry i field hfield
    refine ⟨u, htable ▸ hu.at_eq, hu.skip, hu.hash, hu.nameLength, hu.valueLength, ?_, ?_⟩
    · rw [DataAt, hbase, hdata]
      exact hu.name.extend more
    · rw [DataAt, hbase, hdata]
      exact hu.value.extend more

/-- A pointer of the head to the end of the data. -/
theorem sptrGet_free (hfits : b.free ≤ b.size) (hsmall : b.size < 2 ^ 31) :
    sptrGet 20 (sptrSet 20 b.free) = b.free := by
  have hbase : 20 ≤ b.free := by
    unfold Buf.free Buf.base ResponseHead.size
    omega
  exact sptrGet_sptrSet hbase (by omega)

variable {src : Bytes}

/-- **More content.** -/
theorem Encodes.putContent (h : Encodes b d) (hroom : src.length ≤ b.room) :
    Encodes (putContent b src) { d with content := d.content ++ src } := by
  have hfits := h.fits
  have hsmall := h.small
  have hroom' : src.length ≤ b.size - b.free := hroom
  have hbase : (UnitResponse.putContent b src).base = b.base := rfl
  have hfree : (UnitResponse.putContent b src).free = b.free + src.length := by
    rw [Buf.free, hbase, Buf.free, UnitResponse.putContent, length_append, Nat.add_assoc]
  have hsrc : (UInt32.ofNat src.length).toNat = src.length := by
    rw [UInt32.toNat_ofNat']
    exact Nat.mod_eq_of_lt (by omega)
  have hle : d.content.length ≤ b.free := by
    by_cases hc : d.content = []
    · simp [hc]
    have := (h.content hc).2
    omega
  refine ⟨h.toHoldsFields.extend rfl rfl rfl rfl hroom, h.status, ?_, fun _ => ?_⟩
  · show (b.head.piggybackContentLength + UInt32.ofNat src.length).toNat = _
    rw [UInt32.toNat_add, h.length, hsrc, length_append]
    exact Nat.mod_eq_of_lt (by omega)
  · by_cases hc : d.content = []
    · have hzero : b.head.piggybackContentLength = 0 := by
        rw [← UInt32.toNat_inj, h.length, hc]
        rfl
      have hptr : sptrGet 20 (UnitResponse.putContent b src).head.piggybackContent = b.free := by
        simp only [UnitResponse.putContent, hzero, beq_self_eq_true, if_true]
        exact sptrGet_free hfits hsmall
      rw [hptr, hfree, hc, nil_append]
      have hput := StringAt.put b.base b.data [] src []
      rw [append_nil] at hput
      exact ⟨hput, rfl⟩
    -- the content there ends where the data ends
    obtain ⟨hat, hend⟩ := h.content hc
    have hne : (b.head.piggybackContentLength == 0) = false := by
      rw [beq_eq_false_iff_ne]
      intro hzero
      have hlen := h.length
      rw [hzero] at hlen
      exact hc (eq_nil_of_length_eq_zero hlen.symm)
    have hptr : (UnitResponse.putContent b src).head.piggybackContent =
        b.head.piggybackContent := by
      simp [UnitResponse.putContent, hne]
    have hbl := hat.base_le
    rw [hptr, hfree, length_append]
    refine ⟨⟨hbl, ?_, ?_⟩, by omega⟩
    · show _ ≤ (UnitResponse.putContent b src).free
      rw [hfree, length_append]
      omega
    · rw [hbase, length_append]
      have hstop : sptrGet 20 b.head.piggybackContent - b.base + d.content.length =
          b.data.length := by
        unfold Buf.free at hend
        omega
      show slice (b.data ++ src) _ _ = _
      rw [slice_append_end hstop, hat.eq]

theorem addContent_building (h : Building req od) (hok : addContent req src = .ok req') :
    Building req' (od.map fun d => { d with content := d.content ++ src }) := by
  unfold addContent at hok
  split at hok
  · cases hok
  split at hok
  · cases hok
  cases h with
  | none => cases hok
  | @some st b d h hst => ?_
  dsimp only at hok
  split at hok
  · cases hok
  rename_i hroom
  cases hok
  refine .some (h.putContent (not_lt.mp hroom)) (.inr ?_)
  split
  · rfl
  -- there is content, so the state says so
  rename_i hne
  rcases hst with ⟨-, hc⟩ | hst
  · have hzero : b.head.piggybackContentLength = 0 := by
      rw [← UInt32.toNat_inj, h.length, hc]
      rfl
    rw [hzero] at hne
    exact absurd rfl hne
  · exact hst

/-! ### A larger buffer -/

/-- What is read through the pointers of an entry. -/
theorem Entry.strings {field : Bytes × Bytes} (h : Entry b i field u) :
    b.string (fieldPos i + 8) u.name u.nameLength.toNat = field.1 ∧
      b.string (fieldPos i + 12) u.value u.valueLength.toNat = field.2 := by
  rw [Buf.string, Buf.string, h.nameLength, h.valueLength]
  exact ⟨Buf.slice_data h.name, Buf.slice_data h.value⟩

/-- The fields that were copied so far, in a buffer without content. -/
structure Copied (old new : Buf) (max : ℕ) (fields : List (Bytes × Bytes)) : Prop extends
    HoldsFields new fields where
  table : new.table.length = max
  status : new.head.status = old.head.status
  length : new.head.piggybackContentLength = 0

variable {old new new' : Buf} {max : ℕ}

theorem copyField_copied (hold : Encodes old d) (hmax : d.fields.length ≤ max)
    (hi : i < d.fields.length) (h : Copied old new max (d.fields.take i))
    (hok : copyField old new i = some new') : Copied old new' max (d.fields.take (i + 1)) := by
  have hget : d.fields[i]? = some d.fields[i] := getElem?_eq_getElem hi
  obtain ⟨u, hu⟩ := hold.entry i _ hget
  obtain ⟨hname, hvalue⟩ := hu.strings
  have hfits := hold.fits
  have hsmall := hold.small
  have hlen : d.fields[i].1.length + d.fields[i].2.length + 2 < 2 ^ 32 := by
    have hn : u.nameLength.toNat < 2 ^ 8 := u.nameLength.toNat_lt
    have hv := hu.value.le_free
    rw [hu.nameLength] at hn
    omega
  unfold copyField at hok
  rw [hu.at_eq] at hok
  dsimp only at hok
  rw [hu.skip, if_neg Bool.false_ne_true, hname, hvalue, hu.nameLength, hu.valueLength,
    Nat.mod_eq_of_lt hlen, hu.hash] at hok
  split at hok
  · cases hok
  rename_i hroom
  cases hok
  have hcount : (d.fields.take i).length = i := length_take_of_le hi.le
  have hput := h.toHoldsFields.putField hu.nameLength hu.valueLength
    (by rw [hcount, h.table]; omega) (not_lt.mp hroom)
  have htake : d.fields.take (i + 1) = d.fields.take i ++ [(d.fields[i].1, d.fields[i].2)] := by
    rw [take_add_one, hget]
    rfl
  rw [htake]
  refine ⟨hput, ?_, h.status, h.length⟩
  rw [← h.table]
  simp [putField]

theorem copyFields_copied (hold : Encodes old d) {k : ℕ} (hmax : d.fields.length ≤ max)
    (hk : k ≤ d.fields.length) (h : Copied old new max [])
    (hok : (range k).foldlM (copyField old) new = some new') :
    Copied old new' max (d.fields.take k) := by
  induction k generalizing new' with
  | zero =>
    cases hok
    exact h
  | succ k ih => ?_
  rw [range_succ, foldlM_append] at hok
  obtain ⟨mid, hmid, hlast⟩ := bind_eq_some_iff.mp hok
  rw [foldlM_cons] at hlast
  obtain ⟨new'', hcopy, hnil⟩ := bind_eq_some_iff.mp hlast
  cases hnil
  exact copyField_copied hold hmax hk (ih (Nat.le_of_succ_le hk) hmid) hcopy

theorem copyContent_encodes (hold : Encodes old d) (h : Copied old new max d.fields)
    (hok : copyContent old new = some new') : Encodes new' d := by
  have hnew : Encodes new { d with content := [] } :=
    ⟨h.toHoldsFields, h.status.trans hold.status, by rw [h.length]; rfl, fun hne => absurd rfl hne⟩
  unfold copyContent at hok
  dsimp only at hok
  split at hok
  · rename_i hpos
    rw [hold.length] at hpos
    have hc : d.content ≠ [] := ne_nil_of_length_pos hpos
    split at hok
    · cases hok
    rename_i hroom
    cases hok
    have hstring : old.string 20 old.head.piggybackContent
        old.head.piggybackContentLength.toNat = d.content := by
      rw [Buf.string, hold.length]
      exact Buf.slice_data (hold.content hc).1
    rw [hold.length] at hroom
    have hput := hnew.putContent (not_lt.mp hroom)
    rw [nil_append] at hput
    have hlength : UInt32.ofNat d.content.length = old.head.piggybackContentLength := by
      rw [← hold.length, UInt32.ofNat_toNat]
    rw [hstring]
    simpa [putContent, h.length, hlength] using hput
  rename_i hzero
  cases hok
  have hc : d.content = [] := by
    rw [hold.length] at hzero
    exact eq_nil_of_length_eq_zero (Nat.eq_zero_of_not_pos hzero)
  rw [← hc] at hnew
  exact hnew

theorem responseRealloc_building (h : Building req od)
    (hok : responseRealloc req maxFieldsCount maxFieldsSize mem = .ok req') : Building req' od := by
  unfold responseRealloc at hok
  split at hok
  · cases hok
  split at hok
  · cases hok
  cases h with
  | none => cases hok
  | @some st b d h hst => ?_
  dsimp only at hok
  split at hok
  · cases hok
  rename_i hmax
  split at hok
  · cases hok
  rename_i total htotal
  split at hok
  · cases hok
  rename_i cap junk halloc
  split at hok
  · cases hok
  rename_i mid hmid
  split at hok
  · cases hok
  rename_i new hnew
  cases hok
  obtain ⟨hle, hlt⟩ := responseBufAlloc_some halloc
  have hempty := encodes_emptyBuf
    (fits_emptyBuf htotal hle b.head.status junk) hlt
  have hcount : d.fields.length ≤ maxFieldsCount.toNat := by
    rw [← h.count]
    exact not_lt.mp hmax
  have hcopied : Copied b mid maxFieldsCount.toNat
      (d.fields.take b.head.fieldsCount.toNat) := by
    refine copyFields_copied h hcount (le_of_eq h.count) ?_ hmid
    refine ⟨⟨hempty.fits, hempty.small, hempty.count, hempty.le, ?_⟩, ?_, rfl, rfl⟩
    · intro i field hfield
      simp at hfield
    · simp [emptyBuf]
  rw [h.count, take_length] at hcopied
  exact .some (copyContent_encodes h hcopied hnew) hst

/-! ### All calls -/

/-- **A call that succeeds** does to the buffer what it is meant to do to the
response. -/
theorem call_building (h : Building req od) {c : Call}
    (hok : call req c = .ok req') : Building req' (Draft.after od c) := by
  cases c with
  | init status maxFieldsCount maxFieldsSize junk mem => exact responseInit_building h hok
  | realloc maxFieldsCount maxFieldsSize mem => exact responseRealloc_building h hok
  | addField name value hname hvalue => exact addField_building h hname hvalue hok
  | addContent src hsize => exact addContent_building h hok

variable {calls : List Call}

/-- **After any calls that succeed, the buffer holds what they built.** -/
theorem run_building (h : Building req od) (hrun : run req calls = some req') :
    Building req' (calls.foldl Draft.after od) := by
  induction calls generalizing req od with
  | nil =>
    cases hrun
    exact h
  | cons c calls ih => ?_
  rw [run] at hrun
  split at hrun
  · rename_i req'' hcall
    exact ih (call_building h hcall) hrun
  · cases hrun
  · cases hrun

/-- A request whose calls have built a response has it in its buffer. -/
theorem run_encodes (hrun : run Req.new calls = some req) (hb : req.response = some b) :
    ∃ d, draft calls = some d ∧ Encodes b d := by
  have h := run_building .none hrun
  cases hd : calls.foldl Draft.after none with
  | none =>
    rw [hd] at h
    cases h
    cases hb
  | some d => ?_
  rw [hd] at h
  cases h with
  | some h hst =>
    cases hb
    exact ⟨d, hd, h⟩

end FreeUnit.UnitResponse
