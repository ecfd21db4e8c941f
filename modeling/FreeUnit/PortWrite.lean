/-
Sending a port message in fragments.

`nxt_port_write_msgs` sends as much of a message's buffer chain as one datagram
takes.  `nxt_sendbuf_mem_coalesce` collects it, up to a number of bytes and a
number of memory ranges, and `nxt_port_buf_completion` takes from the chain
what was sent; what is left goes out in further fragments.

* `memCoalesce`, `bufCompletion` — the two passes over the chain;
* `fragment`, `SendMsg.sent` — one datagram and the message after it.
-/
import FreeUnit.PortReassembly

namespace FreeUnit.Port

open List

/-! ### Buffer chains -/

/-- `nxt_buf_t` in the chain of an outgoing message: memory from an address on,
in a shared memory segment or not, or a sync buffer. -/
inductive SendBuf
  | mem (pos : ℕ) (data : Bytes) (mmap : Bool)
  | sync (last : Bool)
  deriving Repr, DecidableEq

def SendBuf.data : SendBuf → Bytes
  | mem _ data _ => data
  | sync _ => []

def payload (bs : List SendBuf) : Bytes := bs.flatMap SendBuf.data

@[simp] theorem payload_nil : payload [] = [] := rfl

@[simp] theorem payload_cons (b : SendBuf) (bs : List SendBuf) :
    payload (b :: bs) = b.data ++ payload bs := rfl

/-- A range of memory to send, `struct iovec`, with its bytes. -/
structure Iov where
  base : ℕ
  data : Bytes
  deriving Repr, DecidableEq

/-- `nxt_sendbuf_coalesce_t`, what it answers with. -/
structure Coalesced where
  iov : List Iov := []
  size : ℕ := 0
  last : Bool := false
  limitReached : Bool := false
  nmaxReached : Bool := false
  deriving Repr, DecidableEq

def Coalesced.bytes (sb : Coalesced) : Bytes := sb.iov.flatMap Iov.data

/-- Bytes that follow the last range in memory go into that range. -/
def extendLast (iov : List Iov) (data : Bytes) : List Iov :=
  match iov.getLast? with
  | none => []
  | some v => iov.dropLast ++ [⟨v.base, v.data ++ data⟩]

/-- The ranges with the bytes at `pos` added, unless they need one more than
`nmax`; `last` is the address after the bytes collected last. -/
def addRange (nmax : ℕ) (iov : List Iov) (pos : ℕ) (data : Bytes) (last : Option ℕ) :
    Option (List Iov) :=
  if some pos ≠ last then
    if nmax ≤ iov.length then none else some (iov ++ [⟨pos, data⟩])
  else some (extendLast iov data)

def memCoalesce (limit nmax : ℕ) : List SendBuf → Coalesced → Option ℕ → Coalesced
  | [], sb, _ => sb
  | b :: bs, sb, last =>
    if limit ≤ sb.size then sb
    else
      match b with
      | .sync l => memCoalesce limit nmax bs { sb with last := sb.last || l } last
      | .mem pos data _ =>
        if data = [] then memCoalesce limit nmax bs sb last
        else
          let exceeds := decide (limit < sb.size + data.length)
          let size := if exceeds then limit - sb.size else data.length
          let sb := { sb with limitReached := sb.limitReached || exceeds }
          if size = 0 then sb
          else
            match addRange nmax sb.iov pos (data.take size) last with
            | none => { sb with nmaxReached := true }
            | some iov =>
              memCoalesce limit nmax bs { sb with iov := iov, size := sb.size + size }
                (some (pos + size))

/-- `nxt_port_buf_completion`: the chain after `sent` bytes of it went out. -/
def bufCompletion : List SendBuf → ℕ → List SendBuf
  | [], _ => []
  | .sync _ :: bs, sent => bufCompletion bs sent
  | .mem pos data mmap :: bs, sent =>
    if data = [] then bufCompletion bs sent
    else if sent = 0 then .mem pos data mmap :: bs
    else if sent < data.length then .mem (pos + sent) (data.drop sent) mmap :: bs
    else bufCompletion bs (sent - data.length)

/-! ### Messages -/

/-- `nxt_port_method_t`. -/
inductive Method
  | any
  | plain
  | mmap
  deriving Repr, DecidableEq

/-- `nxt_port_mmap_get_method`, from the method found so far. -/
def mmapGetMethod : Method → List SendBuf → Method
  | m, [] => m
  | m, .sync _ :: bs => mmapGetMethod m bs
  | m, .mem _ data mmap :: bs =>
    if data = [] then mmapGetMethod m bs
    else if mmap then (if m = .plain then m else mmapGetMethod .mmap bs)
    else if m = .mmap then .plain
    else mmapGetMethod .plain bs

def iobufMax : ℕ := 8

def mmapMinSize : ℕ := 12

/-- `sizeof(nxt_port_msg_t)`. -/
def portMsgSize : ℕ := 16

/-- The sending end of a port: its limits, of which the size of a datagram has
room for more than a header, and the record that
`nxt_port_mmap_write` puts in place of a range of a shared memory segment. -/
structure SendConf where
  maxSize : ℕ
  maxShare : ℕ
  record : Iov → Bytes
  header_lt : 16 < maxSize

/-- `nxt_port_send_msg_t`. -/
structure SendMsg where
  portMsg : PortMsg
  buf : List SendBuf
  fd : Fds
  share : ℕ
  deriving Repr, DecidableEq

/-- The bytes that one fragment takes at most: `sb.limit`. -/
def SendConf.limit (conf : SendConf) (m : Method) : ℕ :=
  (if m = .mmap then 2 ^ 31 - 1 else conf.maxSize) - portMsgSize

/-- The ranges that one fragment takes at most: `sb.nmax`. -/
def SendConf.nmax (conf : SendConf) (m : Method) : ℕ :=
  if m = .mmap then min (iobufMax * 10 - 1) (conf.maxSize / mmapMinSize) else iobufMax - 1

def SendMsg.coalesce (conf : SendConf) (msg : SendMsg) : Coalesced :=
  let m := mmapGetMethod .any msg.buf
  memCoalesce (conf.limit m) (conf.nmax m) msg.buf {} none

/-- Whether the next fragment goes through shared memory. -/
def SendMsg.byMmap (conf : SendConf) (msg : SendMsg) : Bool :=
  decide (mmapGetMethod .any msg.buf = .mmap) &&
    decide (mmapMinSize < (msg.coalesce conf).size)

def SendMsg.header (conf : SendConf) (msg : SendMsg) : PortMsg :=
  let sb := msg.coalesce conf
  { msg.portMsg with
    mmap := msg.byMmap conf
    last := msg.portMsg.last || sb.last
    mf := sb.limitReached || sb.nmaxReached }

/-- The datagram that `nxt_port_write_msgs` sends next for a message. -/
def SendMsg.fragment (conf : SendConf) (msg : SendMsg) : Datagram where
  portMsg := msg.header conf
  data :=
    if msg.byMmap conf then (msg.coalesce conf).iov.flatMap conf.record
    else (msg.coalesce conf).bytes
  fd := msg.fd

/-- The message after its fragment was sent; `none` when that was all of it.
The descriptors go with the first fragment only. -/
def SendMsg.sent (conf : SendConf) (msg : SendMsg) : Option SendMsg :=
  match bufCompletion msg.buf (msg.coalesce conf).size with
  | [] => none
  | bs => some
    { portMsg := { msg.header conf with nf := true }
      buf := bs
      fd := (none, none)
      share := msg.share + portMsgSize + (msg.fragment conf).data.length }

/-! ### What a fragment carries -/

/-- One of the two limits ended the collection: the `mf` bit. -/
def Coalesced.more (sb : Coalesced) : Bool := sb.limitReached || sb.nmaxReached

theorem addRange_eq_some {nmax pos : ℕ} {iov iov' : List Iov} {data : Bytes} {last : Option ℕ}
    (hlast : last.isSome → iov ≠ []) (h : addRange nmax iov pos data last = some iov') :
    iov'.flatMap Iov.data = iov.flatMap Iov.data ++ data ∧ iov' ≠ [] := by
  unfold addRange at h
  split at h
  · split at h
    · cases h
    cases h
    simp
  rename_i hpos
  cases h
  have hne : iov ≠ [] := hlast (by rw [← not_not.mp hpos]; rfl)
  obtain ⟨init, v, rfl⟩ := eq_nil_or_concat iov |>.resolve_left hne
  simp [extendLast]

/-- A collection that goes on: nothing ended it, and there is a last range if
there is an address after it. -/
structure Collecting (limit : ℕ) (sb : Coalesced) (last : Option ℕ) : Prop where
  size : sb.size = sb.bytes.length
  le : sb.size ≤ limit
  more : sb.more = false
  last : last.isSome → sb.iov ≠ []

/-- What a collection `r` adds to `sb` from the bytes `p`: the first of them,
not all if a limit was reached, and otherwise all or as many as the limit
takes. -/
structure Takes (limit : ℕ) (p : Bytes) (sb r : Coalesced) : Prop where
  bytes : r.bytes = sb.bytes ++ p.take (r.size - sb.size)
  size : r.size = r.bytes.length
  mono : sb.size ≤ r.size
  le : r.size ≤ limit
  le_length : r.size - sb.size ≤ p.length
  of_more : r.more = true → r.size - sb.size < p.length
  of_not_more : r.more = false → r.size - sb.size = p.length ∨ r.size = limit

namespace Takes

variable {limit : ℕ} {p : Bytes} {sb r : Coalesced} {last : Option ℕ}

theorem nothing (h : Collecting limit sb last) (hp : p = [] ∨ sb.size = limit) :
    Takes limit p sb sb := by
  refine ⟨by simp, h.size, le_refl _, h.le, by simp, ?_, ?_⟩
  · intro hm
    rw [h.more] at hm
    cases hm
  · intro _
    rcases hp with rfl | hp
    · exact .inl (by simp)
    · exact .inr hp

/-- A limit ended the collection before the next byte. -/
theorem ended (h : Collecting limit sb last) (hr : r.more = true) (hp : 0 < p.length)
    (hiov : r.iov = sb.iov) (hsize : r.size = sb.size) : Takes limit p sb r := by
  have hb : r.bytes = sb.bytes := by rw [Coalesced.bytes, hiov, Coalesced.bytes]
  refine ⟨by simp [hb, hsize], by rw [hsize, hb, h.size], by omega, by rw [hsize]; exact h.le,
    by omega, fun _ => by omega, ?_⟩
  intro hm
  rw [hr] at hm
  cases hm

theorem cut (h : Collecting limit sb last) (hr : r.more = true)
    (hb : r.bytes = sb.bytes ++ p.take (limit - sb.size)) (hs : r.size = limit)
    (hp : limit < sb.size + p.length) : Takes limit p sb r := by
  have hle := h.le
  refine ⟨by rw [hb, hs], ?_, by omega, by omega, by omega, fun _ => by omega, ?_⟩
  · rw [hb, hs, length_append, length_take, ← h.size]
    omega
  · intro hm
    rw [hr] at hm
    cases hm

/-- A buffer was taken whole, and the rest of the chain follows. -/
theorem trans (sb' : Coalesced) (d : Bytes) (hb : sb'.bytes = sb.bytes ++ d)
    (hs : sb'.size = sb.size + d.length) (h : Takes limit p sb' r) : Takes limit (d ++ p) sb r := by
  have hmono := h.mono
  have hsub : r.size - sb.size = d.length + (r.size - sb'.size) := by omega
  refine ⟨?_, h.size, by omega, h.le, ?_, ?_, ?_⟩
  · rw [h.bytes, hb, hsub, append_assoc, take_length_add_append]
  · have := h.le_length
    rw [hsub, length_append]
    omega
  · intro hm
    have := h.of_more hm
    rw [hsub, length_append]
    omega
  · intro hm
    rw [hsub, length_append]
    rcases h.of_not_more hm with he | he
    · exact .inl (by omega)
    · exact .inr he

end Takes

theorem memCoalesce_full {limit nmax : ℕ} {sb : Coalesced} {last : Option ℕ} {bs : List SendBuf}
    (h : limit ≤ sb.size) : memCoalesce limit nmax bs sb last = sb := by
  cases bs with
  | nil => rfl
  | cons b bs => cases b <;> rw [memCoalesce, if_pos h]

/-- **A fragment collects the next bytes of the payload.** -/
theorem memCoalesce_takes {limit nmax : ℕ} {bs : List SendBuf} {sb : Coalesced}
    {last : Option ℕ} (h : Collecting limit sb last) :
    Takes limit (payload bs) sb (memCoalesce limit nmax bs sb last) := by
  induction bs generalizing sb last with
  | nil => exact Takes.nothing h (.inl rfl)
  | cons b bs ih => ?_
  by_cases hfull : limit ≤ sb.size
  · rw [memCoalesce_full hfull]
    exact Takes.nothing h (.inr (le_antisymm h.le hfull))
  cases b with
  | sync l =>
    rw [memCoalesce, if_neg hfull]
    have hc : Collecting limit { sb with last := sb.last || l } last :=
      ⟨h.size, h.le, h.more, h.last⟩
    exact (ih hc).trans _ [] (by simp [Coalesced.bytes]) (by simp)
  | mem pos data mm => ?_
  rw [memCoalesce, if_neg hfull]
  dsimp only
  by_cases hd : data = []
  · rw [if_pos hd]
    subst hd
    exact (ih h).trans _ [] (by simp) (by simp)
  rw [if_neg hd]
  have hpos : 0 < (data ++ payload bs).length := by
    have := length_pos_iff.mpr hd
    rw [length_append]
    omega
  by_cases hexceeds : limit < sb.size + data.length
  · -- The buffer is cut at the limit, and that ends the collection.
    have hsize : limit - sb.size ≠ 0 := by omega
    simp only [decide_eq_true hexceeds, if_true, if_neg hsize, Bool.or_true]
    split
    · exact Takes.ended h rfl hpos rfl rfl
    rename_i iov hadd
    have hfill : limit ≤ sb.size + (limit - sb.size) := by omega
    have hbytes := (addRange_eq_some h.last hadd).1
    rw [memCoalesce_full hfill]
    refine Takes.cut h rfl ?_ (by show sb.size + (limit - sb.size) = limit; omega) ?_
    · show iov.flatMap Iov.data = sb.bytes ++ (data ++ payload bs).take (limit - sb.size)
      rw [hbytes, take_append_of_le_length (by omega)]
      rfl
    · show limit < sb.size + (data ++ payload bs).length
      rw [length_append]
      omega
  -- It is taken whole, if there is a range for it.
  have hsize : data.length ≠ 0 := by
    rw [Ne, length_eq_zero_iff]
    exact hd
  simp only [decide_eq_false hexceeds, Bool.false_eq_true, if_false, if_neg hsize,
    take_length, Bool.or_false]
  split
  · exact Takes.ended h (by simp [Coalesced.more]) hpos rfl rfl
  rename_i iov hadd
  obtain ⟨hbytes, hne⟩ := addRange_eq_some h.last hadd
  refine Takes.trans { sb with iov := iov, size := sb.size + data.length } data
    hbytes rfl (ih ⟨?_, ?_, h.more, fun _ => hne⟩)
  · show sb.size + data.length = (iov.flatMap Iov.data).length
    rw [hbytes, length_append, h.size]
    rfl
  show sb.size + data.length ≤ limit
  omega

/-- The chain after a completion holds the rest of the payload. -/
theorem payload_bufCompletion (bs : List SendBuf) {n : ℕ} (h : n ≤ (payload bs).length) :
    payload (bufCompletion bs n) = (payload bs).drop n := by
  induction bs generalizing n with
  | nil => simp [bufCompletion]
  | cons b bs ih => ?_
  cases b with
  | sync l => exact ih h
  | mem pos data mm => ?_
  rw [bufCompletion]
  by_cases hd : data = []
  · subst hd
    rw [if_pos rfl]
    exact ih h
  rw [if_neg hd]
  by_cases hn : n = 0
  · rw [if_pos hn, hn]
    rfl
  rw [if_neg hn]
  by_cases hlt : n < data.length
  · rw [if_pos hlt]
    show data.drop n ++ payload bs = (data ++ payload bs).drop n
    rw [drop_append_of_le_length (Nat.le_of_lt hlt)]
  rw [if_neg hlt]
  have hle : n - data.length ≤ (payload bs).length := by
    have hlen : n ≤ (data ++ payload bs).length := h
    rw [length_append] at hlen
    omega
  rw [ih hle]
  show _ = (data ++ payload bs).drop n
  rw [drop_append, drop_eq_nil_of_le (Nat.le_of_not_lt hlt), nil_append]

/-- It is empty exactly when all of the payload went out. -/
theorem bufCompletion_eq_nil (bs : List SendBuf) (n : ℕ) :
    bufCompletion bs n = [] ↔ (payload bs).length ≤ n := by
  induction bs generalizing n with
  | nil => simp [bufCompletion]
  | cons b bs ih => ?_
  cases b with
  | sync l => exact ih n
  | mem pos data mm => ?_
  rw [bufCompletion]
  have hlen : (payload (.mem pos data mm :: bs)).length = data.length + (payload bs).length :=
    length_append
  by_cases hd : data = []
  · subst hd
    rw [if_pos rfl]
    exact ih n
  have hpos := length_pos_iff.mpr hd
  rw [if_neg hd, hlen]
  by_cases hn : n = 0
  · rw [if_pos hn]
    simp
    omega
  rw [if_neg hn]
  by_cases hlt : n < data.length
  · rw [if_pos hlt]
    simp
    omega
  rw [if_neg hlt, ih]
  omega

/-- The first range always has room, so a payload makes progress. -/
theorem memCoalesce_pos {limit nmax : ℕ} (hl : 0 < limit) (hn : 0 < nmax) {bs : List SendBuf}
    {sb : Coalesced} (hiov : sb.iov = []) (hsize : sb.size = 0) (hmore : sb.more = false)
    (hp : payload bs ≠ []) : 0 < (memCoalesce limit nmax bs sb none).size := by
  induction bs generalizing sb with
  | nil => exact absurd rfl hp
  | cons b bs ih => ?_
  have hfull : ¬ limit ≤ sb.size := by omega
  cases b with
  | sync l =>
    rw [memCoalesce, if_neg hfull]
    exact ih hiov hsize hmore hp
  | mem pos data mm => ?_
  rw [memCoalesce, if_neg hfull]
  dsimp only
  by_cases hd : data = []
  · subst hd
    rw [if_pos rfl]
    exact ih hiov hsize hmore hp
  have hpos := length_pos_iff.mpr hd
  rw [if_neg hd]
  generalize hk : (if decide (limit < sb.size + data.length) = true then limit - sb.size
    else data.length) = k
  have hk0 : 0 < k := by
    rw [← hk]
    split <;> omega
  have hkl : k ≤ limit ∧ k ≤ data.length := by
    rw [← hk]
    split <;> rename_i he
    · have := of_decide_eq_true he
      omega
    have := of_decide_eq_false (Bool.eq_false_of_not_eq_true he)
    omega
  rw [if_neg (by omega)]
  -- No range is there yet, so `addRange` opens the first.
  have hadd : addRange nmax sb.iov pos (data.take k) none = some [⟨pos, data.take k⟩] := by
    rw [addRange, if_pos (by simp), hiov, if_neg (by simp; omega)]
    rfl
  simp only [hadd]
  by_cases he : limit < sb.size + data.length
  · rw [memCoalesce_full]
    · show 0 < sb.size + k
      omega
    show limit ≤ sb.size + k
    rw [if_pos (decide_eq_true he)] at hk
    omega
  have hc : Collecting limit { sb with
      limitReached := sb.limitReached || decide (limit < sb.size + data.length)
      iov := [⟨pos, data.take k⟩], size := sb.size + k } (some (pos + k)) := by
    refine ⟨?_, ?_, ?_, fun _ => by simp⟩
    · simp [Coalesced.bytes, hsize]
      omega
    · show sb.size + k ≤ limit
      omega
    · simpa [Coalesced.more, he] using hmore
  have ht : Takes limit (payload bs) _ (memCoalesce limit nmax bs _ (some (pos + k))) :=
    memCoalesce_takes hc
  have hmono : sb.size + k ≤ _ := ht.mono
  omega

section Fragments

variable (conf : SendConf) (msg : SendMsg)

theorem SendConf.limit_pos (m : Method) : 0 < conf.limit m := by
  have := conf.header_lt
  unfold SendConf.limit portMsgSize
  split <;> omega

theorem SendConf.nmax_pos (m : Method) : 0 < conf.nmax m := by
  have := conf.header_lt
  unfold SendConf.nmax iobufMax mmapMinSize
  split <;> omega

/-- What the next fragment of a message takes of its payload. -/
theorem SendMsg.coalesce_takes :
    Takes (conf.limit (mmapGetMethod .any msg.buf)) (payload msg.buf) {} (msg.coalesce conf) :=
  memCoalesce_takes ⟨rfl, Nat.zero_le _, rfl, by simp⟩

theorem SendMsg.coalesce_pos (h : payload msg.buf ≠ []) : 0 < (msg.coalesce conf).size :=
  memCoalesce_pos (conf.limit_pos _) (conf.nmax_pos _) rfl rfl rfl h

/-- The bytes of the next fragment are the first of the payload. -/
theorem SendMsg.coalesce_bytes :
    (msg.coalesce conf).bytes = (payload msg.buf).take (msg.coalesce conf).size := by
  simpa [Coalesced.bytes] using (msg.coalesce_takes conf).bytes

/-- **Exact fit.**  The fragment ends at the end of a buffer with its last byte
at the limit: payload is left, but neither limit counts as reached. -/
def SendMsg.ExactFit : Prop :=
  (msg.coalesce conf).more = false ∧ (msg.coalesce conf).size < (payload msg.buf).length

variable {conf msg}

/-- Except for an exact fit, `mf` says whether payload is left. -/
theorem SendMsg.more_iff (h : ¬ msg.ExactFit conf) :
    (msg.coalesce conf).more = true ↔ (msg.coalesce conf).size < (payload msg.buf).length := by
  have ht := msg.coalesce_takes conf
  constructor
  · intro hm
    simpa using ht.of_more hm
  · intro hlt
    by_contra hm
    exact h ⟨Bool.eq_false_of_not_eq_true hm, hlt⟩

theorem SendMsg.sent_eq_none :
    msg.sent conf = none ↔ (payload msg.buf).length ≤ (msg.coalesce conf).size := by
  rw [← bufCompletion_eq_nil, SendMsg.sent]
  split <;> simp_all

theorem SendMsg.size_le : (msg.coalesce conf).size ≤ (payload msg.buf).length := by
  simpa using (msg.coalesce_takes conf).le_length

/-- The message after a fragment: the rest of the payload, no descriptors. -/
theorem SendMsg.sent_eq_some {msg' : SendMsg} (h : msg.sent conf = some msg') :
    msg'.portMsg.key = msg.portMsg.key ∧ msg'.portMsg.nf = true ∧ msg'.fd = (none, none) ∧
      msg'.buf = bufCompletion msg.buf (msg.coalesce conf).size ∧
      payload msg'.buf = (payload msg.buf).drop (msg.coalesce conf).size := by
  have hle : (msg.coalesce conf).size ≤ (payload msg.buf).length := SendMsg.size_le
  have hp := payload_bufCompletion msg.buf hle
  unfold SendMsg.sent at h
  split at h
  · cases h
  cases h
  exact ⟨rfl, rfl, rfl, rfl, hp⟩

/-- A fragment takes bytes from the message. -/
theorem SendMsg.sent_shorter {msg' : SendMsg} (h : msg.sent conf = some msg') :
    (payload msg'.buf).length < (payload msg.buf).length := by
  have hne : payload msg.buf ≠ [] := by
    intro he
    rw [SendMsg.sent_eq_none.mpr (by simp [he])] at h
    cases h
  have hpos := msg.coalesce_pos conf hne
  have hlen := length_pos_iff.mpr hne
  rw [(SendMsg.sent_eq_some h).2.2.2.2, length_drop]
  omega

end Fragments

end FreeUnit.Port
