/-
The body of a response on its way to the client: `nxt_http_request_send`, which
drops the payload of a response that must not have one, and the chunked sender
`nxt_h1p_chunk_create` of the HTTP/1 layer.

* `requestSends_bodyless_iff` — what reaches the protocol layer, and what is
  completed, for a response that must not have a body;
* `chunkSends_roundTrip` — the calls of the chunked sender, read back by the
  chunk parser over any cut of the stream.

A failed allocation ends the response with an error and is outside the model.
-/
import FreeUnit.ChunkGrammar
import FreeUnit.ResponseHeader

namespace FreeUnit

open Transducer List

/-! ### Buffers -/

/-- `b->completion_handler`, as far as buffers are told apart by it. -/
inductive CompletionHandler where
  | memBuf | requestDone | other (n : ℕ)
  deriving DecidableEq, Repr

/-- What a buffer holds: the bytes between `mem.pos` and `mem.free`, those of
a file between `file_pos` and `file_end`, or nothing in a sync buffer. -/
inductive BufBody where
  | mem (bytes : Bytes)
  | file (bytes : Bytes)
  | sync
  deriving DecidableEq, Repr

/-- What the send path reads of `nxt_buf_t`. -/
structure SendBuf where
  body : BufBody
  last : Bool := false
  handler : CompletionHandler := .memBuf
  deriving DecidableEq, Repr

variable {b : SendBuf}

namespace SendBuf

def isSync (b : SendBuf) : Bool := b.body = .sync

/-- The bytes that `nxt_buf_used_size` counts. -/
def payload (b : SendBuf) : Bytes :=
  match b.body with
  | .mem bytes => bytes
  | .file bytes => bytes
  | .sync => []

/-- `mem.pos = mem.free`, and `file_pos = file_end`. -/
def emptied (b : SendBuf) : SendBuf :=
  match b.body with
  | .mem _ => { b with body := .mem [] }
  | .file _ => { b with body := .file [] }
  | .sync => b

def isMarker (b : SendBuf) : Bool := b.isSync || b.last

theorem payload_emptied (b : SendBuf) : b.emptied.payload = [] := by
  obtain ⟨bytes | bytes | _, last, handler⟩ := b <;> rfl

theorem emptied_of_isSync (h : b.isSync = true) : b.emptied = b := by
  obtain ⟨bytes | bytes | _, last, handler⟩ := b
  · cases h
  · cases h
  · rfl

end SendBuf

def chainBytes (out : List SendBuf) : Bytes := out.flatMap SendBuf.payload

/-! ### Completion -/

/-- The loop of `nxt_sendbuf_coalesce_completion`: the buffers that are
completed together with the first one, and the rest of the chain. -/
def coalesceLoop (handler : CompletionHandler) : List SendBuf → List SendBuf × List SendBuf
  | [] => ([], [])
  | b :: chain =>
    if !b.isSync && b.payload ≠ [] then ([], b :: chain)
    else
      let (joined, rest) := coalesceLoop handler chain
      if b.handler = handler then (b :: joined, rest) else (joined, b :: rest)

/-- `nxt_sendbuf_drain`: the work items that are queued, each the chain of
buffers that its handler completes. -/
def sendbufDrain : ℕ → List SendBuf → List (List SendBuf)
  | 0, _ => []
  | _, [] => []
  | fuel + 1, b :: chain =>
    let (joined, rest) := coalesceLoop b.handler chain
    (b :: joined) :: sendbufDrain fuel rest

theorem coalesceLoop_perm (handler : CompletionHandler) (chain : List SendBuf) :
    ((coalesceLoop handler chain).1 ++ (coalesceLoop handler chain).2).Perm chain := by
  induction chain with
  | nil => exact .nil
  | cons b chain ih => ?_
  rw [coalesceLoop]
  by_cases hdata : (!b.isSync && b.payload ≠ []) = true
  · rw [if_pos hdata]
    exact .refl _
  rw [if_neg hdata]
  dsimp only
  by_cases hhandler : b.handler = handler
  · rw [if_pos hhandler]
    exact ih.cons b
  rw [if_neg hhandler]
  exact perm_middle.trans (ih.cons b)

/-- Every buffer of a chain is completed exactly once. -/
theorem sendbufDrain_perm : ∀ {fuel : ℕ} {chain : List SendBuf}, chain.length ≤ fuel →
    (sendbufDrain fuel chain).flatten.Perm chain
  | 0, [], _ => .nil
  | fuel + 1, [], _ => .nil
  | fuel + 1, b :: chain, h => by
    have hloop := coalesceLoop_perm b.handler chain
    have hlen := hloop.length_eq
    rw [length_append] at hlen
    rw [length_cons] at h
    have hrest : (sendbufDrain fuel (coalesceLoop b.handler chain).2).flatten.Perm
        (coalesceLoop b.handler chain).2 := sendbufDrain_perm (by omega)
    rw [sendbufDrain, flatten_cons, cons_append]
    exact ((perm_append_left_iff _).mpr hrest |>.trans hloop).cons b

theorem sendbufDrain_perm_two :
    (sendbufDrain 2 [{ body := .mem [1] }, { body := .sync }]).flatten.Perm
      [{ body := .mem [1] }, { body := .sync }] :=
  sendbufDrain_perm (by decide)

/-! ### A response without a body -/

/-- `nxt_http_request_body_drop`: the chain that is left, and the completions
that are queued. -/
def requestBodyDrop : List SendBuf → List SendBuf × List (List SendBuf)
  | [] => ([], [])
  | b :: next =>
    let (out, done) := requestBodyDrop next
    if b.isSync then (b :: out, done)
    -- the marker still ends the request
    else if b.last then (b.emptied :: out, done)
    else (out, sendbufDrain 1 [b] ++ done)

/-- The chains that were given to the protocol layer, and the completions that
were queued. -/
structure Sent where
  toProto : List (List SendBuf) := []
  completed : List (List SendBuf) := []
  deriving DecidableEq, Repr

/-- `nxt_http_request_send`; `proto` tells whether the request still has a
connection. -/
def requestSend (noBody proto : Bool) (out : List SendBuf) : Sent :=
  if noBody then
    let (out, done) := requestBodyDrop out
    if out = [] then { completed := done }
    else { toProto := if proto then [out] else [], completed := done }
  else { toProto := if proto then [out] else [] }

/-- A call of `nxt_http_request_send`. -/
structure SendCall where
  proto : Bool := true
  out : List SendBuf
  deriving DecidableEq, Repr

def requestSends (noBody : Bool) (calls : List SendCall) : Sent :=
  calls.foldl (fun s call =>
    let r := requestSend noBody call.proto call.out
    { toProto := s.toProto ++ r.toProto, completed := s.completed ++ r.completed }) {}

def markersOf (out : List SendBuf) : List SendBuf :=
  (out.filter SendBuf.isMarker).map SendBuf.emptied

def dataOf (out : List SendBuf) : List SendBuf := out.filter fun b => !b.isMarker

/-- The body of a response was dropped: no payload reached the protocol layer,
the markers did in their order, and the other buffers were completed, each of
them once. -/
structure BodyDropped (calls : List SendCall) (s : Sent) : Prop where
  payload : ∀ b ∈ s.toProto.flatten, b.payload = []
  markers : s.toProto.flatten =
    markersOf ((calls.filter SendCall.proto).flatMap SendCall.out)
  completed : s.completed.flatten = dataOf (calls.flatMap SendCall.out)

theorem requestBodyDrop_eq (out : List SendBuf) : (requestBodyDrop out).1 = markersOf out ∧
      (requestBodyDrop out).2.flatten = dataOf out := by
  induction out with
  | nil => exact ⟨rfl, rfl⟩
  | cons b next ih => ?_
  obtain ⟨hout, hdone⟩ := ih
  rw [requestBodyDrop]
  dsimp only
  by_cases hsync : b.isSync = true
  · have hmarker : b.isMarker = true := by simp [SendBuf.isMarker, hsync]
    rw [if_pos hsync, markersOf, dataOf, filter_cons_of_pos hmarker,
      filter_cons_of_neg (by simp [hmarker]), map_cons,
      SendBuf.emptied_of_isSync hsync, hout, hdone]
    exact ⟨rfl, rfl⟩
  rw [if_neg hsync]
  by_cases hlast : b.last = true
  · have hmarker : b.isMarker = true := by simp [SendBuf.isMarker, hlast]
    rw [if_pos hlast, markersOf, dataOf, filter_cons_of_pos hmarker,
      filter_cons_of_neg (by simp [hmarker]), map_cons, hout, hdone]
    exact ⟨rfl, rfl⟩
  have hmarker : b.isMarker = false := by simp [SendBuf.isMarker, hsync, hlast]
  rw [if_neg hlast, markersOf, dataOf, filter_cons_of_neg (by simp [hmarker]),
    filter_cons_of_pos (by simp [hmarker]), flatten_append, hout, hdone]
  exact ⟨rfl, rfl⟩

variable {out : List SendBuf}

theorem payload_of_mem_markersOf (h : b ∈ markersOf out) :
    b.payload = [] := by
  obtain ⟨a, -, rfl⟩ := mem_map.mp h
  exact a.payload_emptied

theorem requestSend_noBody (proto : Bool) (out : List SendBuf) :
    (requestSend true proto out).toProto.flatten = (if proto then markersOf out else []) ∧
      (requestSend true proto out).completed.flatten = dataOf out := by
  obtain ⟨hout, hdone⟩ := requestBodyDrop_eq out
  rw [requestSend, if_pos rfl]
  dsimp only
  rw [hout]
  by_cases hnil : markersOf out = []
  · rw [if_pos hnil, hnil]
    exact ⟨by simp, hdone⟩
  rw [if_neg hnil]
  refine ⟨?_, hdone⟩
  cases proto <;> simp

theorem markersOf_append (out out' : List SendBuf) :
    markersOf (out ++ out') = markersOf out ++ markersOf out' := by
  rw [markersOf, filter_append, map_append, markersOf, markersOf]

theorem dataOf_append (out out' : List SendBuf) :
    dataOf (out ++ out') = dataOf out ++ dataOf out' := by
  rw [dataOf, filter_append, dataOf, dataOf]

theorem requestSends_noBody (calls : List SendCall) :
    BodyDropped calls (requestSends true calls) := by
  suffices h : (requestSends true calls).toProto.flatten =
        markersOf ((calls.filter SendCall.proto).flatMap SendCall.out) ∧
      (requestSends true calls).completed.flatten = dataOf (calls.flatMap SendCall.out) from
    ⟨fun b hb => payload_of_mem_markersOf (h.1 ▸ hb), h.1, h.2⟩
  rw [requestSends]
  induction calls using reverseRecOn with
  | nil => exact ⟨rfl, rfl⟩
  | append_singleton calls call ih => ?_
  obtain ⟨hproto, hdone⟩ := ih
  obtain ⟨hproto', hdone'⟩ := requestSend_noBody call.proto call.out
  rw [foldl_append, foldl_cons, foldl_nil]
  dsimp only
  rw [flatten_append, flatten_append, hproto, hdone, hproto', hdone',
    filter_append, flatMap_append, flatMap_append, markersOf_append,
    dataOf_append, flatMap_singleton]
  refine ⟨?_, rfl⟩
  cases hp : call.proto with
  | false => simp [hp, markersOf]
  | true => simp [hp]

/-- The responses that must not have a body: those to HEAD, 204, 304, and the
interim ones other than an accepted protocol switch. -/
def MustBeBodyless (ctx : SendContext) (status : ℕ) : Prop :=
  ctx.head = true ∨ status = 204 ∨ status = 304 ∨
    (100 ≤ status ∧ status < 200 ∧ ¬ (ctx.websocketHandshake = true ∧ status = 101))

theorem requestIsBodyless_iff {ctx : SendContext} {status : ℕ}
    (hget : ctx.websocketHandshake = true → ctx.head = false)
    (hbodyless : MustBeBodyless ctx status) :
    requestIsBodyless ctx status = true ↔ (ctx.head = true → 100 ≤ status) := by
  -- an accepted switch answers a GET
  have hswitch : ¬ (ctx.websocketHandshake = true ∧ status = 101) := by
    rintro ⟨hws, rfl⟩
    have hhead := hget hws
    simp [MustBeBodyless, hhead, hws] at hbodyless
  rw [requestIsBodyless, if_neg hswitch]
  by_cases hinterim : status ≥ 100 ∧ status < 200
  · rw [if_pos hinterim]
    exact ⟨fun _ _ => hinterim.1, fun _ => rfl⟩
  rw [if_neg hinterim, requestIsBodylessFinal]
  by_cases hlow : status < 200
  · -- below 100 only the method can forbid the body, and it is not looked at
    have hhead : ctx.head = true := by
      rcases hbodyless with h | h | h | h
      · exact h
      all_goals omega
    rw [if_pos hlow]
    simp only [Bool.false_eq_true, hhead, forall_const, false_iff]
    omega
  rw [if_neg hlow]
  refine ⟨fun _ _ => by omega, fun _ => ?_⟩
  by_cases hstatus : statusNoRepresentation status = true
  · rw [if_pos hstatus]
  rw [if_neg hstatus]
  simp only [statusNoRepresentation, hlow, decide_false, Bool.false_or, Bool.or_eq_true,
    beq_iff_eq, not_or] at hstatus
  rcases hbodyless with h | h | h | h
  · exact h
  · exact absurd h hstatus.1
  · exact absurd h hstatus.2
  · omega

/-- **A response that must not have a body.**  Whatever is sent, no payload
reaches the protocol layer, the sync and last buffers do in their order, and
the dropped buffers are completed once each; except that a response to HEAD
with a status below 100 is sent with its body. -/
theorem requestSends_bodyless_iff (ctx : SendContext) (status : HttpStatus)
    (hget : ctx.websocketHandshake = true → ctx.head = false)
    (hbodyless : MustBeBodyless ctx status) :
    (∀ calls, BodyDropped calls (requestSends (requestIsBodyless ctx status) calls)) ↔
      (ctx.head = true → 100 ≤ status) := by
  rw [← requestIsBodyless_iff hget hbodyless]
  constructor
  · intro hdropped
    by_contra hbody
    rw [Bool.not_eq_true] at hbody
    have hpayload := (hdropped [{ out := [{ body := .mem (str "x") }] }]).payload
    rw [hbody] at hpayload
    exact absurd (hpayload _ (.head _)) (by decide)
  · intro hbody calls
    rw [hbody]
    exact requestSends_noBody calls

/-- A 204 with a body in two calls. -/
theorem requestSends_noContent :
    let calls : List SendCall :=
      [{ out := [{ body := .mem (str "abc") }] }, { out := [{ body := .sync, last := true }] }]
    BodyDropped calls (requestSends (requestIsBodyless {} 204) calls) :=
  (requestSends_bodyless_iff {} 204 (fun _ => rfl) (.inr (.inl rfl))).mpr (fun h => by cases h) _

/-- A response to HEAD with the status 42 keeps its body. -/
theorem requestSends_headStatus :
    requestIsBodyless { head := true } 42 = false ∧
      (requestSends (requestIsBodyless { head := true } 42)
        [{ out := [{ body := .mem (str "abc") }, { body := .sync, last := true }] }]).toProto =
        [[{ body := .mem (str "abc") }, { body := .sync, last := true }]] ∧
      ¬ ∀ calls, BodyDropped calls (requestSends (requestIsBodyless { head := true } 42) calls) := by
  refine ⟨by decide, by decide, fun h => ?_⟩
  have hpayload := (h [{ out := [{ body := .mem (str "abc") }] }]).payload
  exact absurd (hpayload { body := .mem (str "abc") } (by decide)) (by decide)

/-! ### Sizes in hexadecimal digits -/

/-- A digit of `hexadecimal` in `nxt_sprintf`. -/
def hexChar (d : ℕ) : UInt8 := if d < 10 then 0x30 + UInt8.ofNat d else 0x57 + UInt8.ofNat d

/-- `nxt_sprintf` with `%xO`. -/
def hexadecimal (n : ℕ) : Bytes :=
  if n = 0 then [0x30] else (Nat.digits 16 n).reverse.map hexChar

theorem hexDigit_hexChar {d : ℕ} (h : d < 16) :
    ∃ c, hexDigit (hexChar d) = some c ∧ c.toNat = d := by
  have key : ∀ d < 16, hexDigit (hexChar d) = some (UInt8.ofNat d) := by decide
  refine ⟨_, key d h, ?_⟩
  rw [UInt8.toNat_ofNat']
  omega

theorem hexSize_hexadecimal (n : ℕ) : HexSize (hexadecimal n) n := by
  induction n using Nat.strong_induction_on with
  | _ n ih =>
    obtain ⟨c, hc, hval⟩ := hexDigit_hexChar (Nat.mod_lt n (by decide : 16 > 0))
    by_cases hzero : n = 0
    · subst hzero
      exact HexSize.one (show hexDigit 0x30 = some 0 by decide)
    rw [hexadecimal, if_neg hzero, Nat.digits_def' (by decide) (by omega), reverse_cons,
      map_append, map_singleton]
    by_cases hsmall : n < 16
    · rw [Nat.div_eq_of_lt hsmall, Nat.digits_zero, reverse_nil, map_nil, nil_append]
      have hone := HexSize.one hc
      rw [hval, Nat.mod_eq_of_lt hsmall] at hone
      rwa [Nat.mod_eq_of_lt hsmall]
    -- the digits of the quotient come first
    have hdiv := ih (n / 16) (by omega)
    rw [hexadecimal, if_neg (by omega)] at hdiv
    have := hdiv.snoc hc
    rwa [hval, Nat.div_add_mod'] at this

theorem length_hexadecimal_le {n : ℕ} (h : n < 2 ^ 64) : (hexadecimal n).length ≤ 16 := by
  rw [hexadecimal]
  by_cases hzero : n = 0
  · rw [if_pos hzero]
    decide
  rw [if_neg hzero, length_map, length_reverse]
  exact (Nat.digits_length_le_iff (by decide) n).mpr (by omega)

/-! ### The chunked sender -/

/-- `tail_chunk` -/
def tailChunk : Bytes := str "\r\n0\r\n\r\n"

/-- The loop of `nxt_h1p_chunk_create` over the chain: the size of the data
before the last buffer, and the chain with the last chunk put in. -/
def chunkTail (truncated chunkSent : Bool) : ℕ → List SendBuf → ℕ × List SendBuf
  | size, [] => (size, [])
  | size, b :: out =>
    if b.last then
      if truncated then (size, b :: out)
      else
        -- without data before it the last chunk needs no line end
        let tail := if !chunkSent && size = 0 then tailChunk.drop crlf.length else tailChunk
        (size, { body := .mem tail } :: b :: out)
    else
      let (size, out) := chunkTail truncated chunkSent (size + b.payload.length) out
      (size, b :: out)

def chunkHeaderSize : ℕ := 2 * crlf.length + 16

/-- The header of a chunk, as much of it as fits into its buffer. -/
def chunkHeader (chunkSent : Bool) (size : ℕ) : Bytes :=
  ((if chunkSent then crlf else []) ++ hexadecimal size ++ crlf).take chunkHeaderSize

/-- `nxt_h1p_chunk_create`: `h1p->chunk_sent` after it, and the chain that is
written. -/
def chunkCreate (truncated chunkSent : Bool) (out : List SendBuf) : Bool × List SendBuf :=
  let (size, out) := chunkTail truncated chunkSent 0 out
  if size = 0 then (chunkSent, out)
  else (true, { body := .mem (chunkHeader chunkSent size) } :: out)

/-- A chain for the chunked sender, and `r->truncated` when it is sent.  Its
size is counted in an `nxt_off_t`. -/
structure ChunkCall where
  truncated : Bool := false
  out : List SendBuf
  fits : (chainBytes out).length ≤ offTMax

def chunkSends : Bool → List ChunkCall → Bytes
  | _, [] => []
  | chunkSent, call :: calls =>
    let (chunkSent, out) := chunkCreate call.truncated chunkSent call.out
    chainBytes out ++ chunkSends chunkSent calls

/-- The last buffer is the last one, and holds no data: it is `r->last`, a sync
buffer that is handed out once, for the end of a chain. -/
def LastEnds (bufs : List SendBuf) : Prop :=
  (∀ b ∈ bufs.dropLast, b.last = false) ∧ ∀ b ∈ bufs, b.last = true → b.payload = []

instance (bufs : List SendBuf) : Decidable (LastEnds bufs) := inferInstanceAs (Decidable (_ ∧ _))

def ChunkCall.ends (call : ChunkCall) : Bool := !call.truncated && call.out.any SendBuf.last

/-! ### One call of the sender -/

@[simp] theorem chainBytes_nil : chainBytes [] = [] := rfl

@[simp] theorem chainBytes_cons (b : SendBuf) (out : List SendBuf) :
    chainBytes (b :: out) = b.payload ++ chainBytes out := rfl

theorem chainBytes_append (out out' : List SendBuf) :
    chainBytes (out ++ out') = chainBytes out ++ chainBytes out' := flatMap_append

/-- Data buffers are counted and left as they are. -/
theorem chunkTail_append (truncated chunkSent : Bool) {data : List SendBuf}
    (hdata : ∀ b ∈ data, b.last = false) (size : ℕ) (rest : List SendBuf) :
    chunkTail truncated chunkSent size (data ++ rest) =
      ((chunkTail truncated chunkSent (size + (chainBytes data).length) rest).1,
        data ++ (chunkTail truncated chunkSent (size + (chainBytes data).length) rest).2) := by
  induction data generalizing size with
  | nil => rfl
  | cons b data ih => ?_
  obtain ⟨hb, hdata⟩ := forall_mem_cons.mp hdata
  rw [cons_append, chunkTail, if_neg (by simp [hb]), ih hdata, chainBytes_cons,
    length_append, Nat.add_assoc]
  rfl

def chunkOf (chunkSent : Bool) (data : Bytes) : Bytes :=
  if data = [] then [] else chunkHeader chunkSent data.length ++ data

/-- The last chunk, after the line end of the data before it. -/
def lastChunk (chunkSent : Bool) : Bytes :=
  if chunkSent then tailChunk else tailChunk.drop crlf.length

/-- The flag `chunk_sent` after a call with some data. -/
def sentAfter (chunkSent : Bool) (data : Bytes) : Bool := chunkSent || data ≠ []

variable {data : Bytes}

/-- The header is put before the data that the loop has counted. -/
theorem chunkCreate_of_tail {truncated chunkSent : Bool} {out' : List SendBuf} {more : Bytes}
    (htail : chunkTail truncated chunkSent 0 out = (data.length, out'))
    (hout : chainBytes out' = data ++ more) :
    (chunkCreate truncated chunkSent out).1 = sentAfter chunkSent data ∧
      chainBytes (chunkCreate truncated chunkSent out).2 = chunkOf chunkSent data ++ more := by
  rw [chunkCreate, htail]
  dsimp only
  by_cases hdata : data = []
  · subst hdata
    rw [length_nil, if_pos rfl]
    exact ⟨by simp [sentAfter], by rw [hout]; rfl⟩
  rw [if_neg (by simpa using hdata), chunkOf, if_neg hdata]
  refine ⟨by simp [sentAfter, hdata], ?_⟩
  rw [chainBytes_cons, hout, append_assoc]
  rfl

/-- What a call writes: a chunk if there is data, and the last chunk if the
body ends. -/
theorem chunkCreate_bytes (truncated chunkSent : Bool) (hends : LastEnds out) :
    (chunkCreate truncated chunkSent out).1 = sentAfter chunkSent (chainBytes out) ∧
      chainBytes (chunkCreate truncated chunkSent out).2 = chunkOf chunkSent (chainBytes out) ++
          if !truncated && out.any SendBuf.last then
            lastChunk (sentAfter chunkSent (chainBytes out)) else [] := by
  obtain rfl | ⟨data, b, rfl⟩ := out.eq_nil_or_concat
  · exact chunkCreate_of_tail rfl (by simp)
  rw [concat_eq_append] at hends ⊢
  obtain ⟨hdata, hlast⟩ := hends
  rw [dropLast_concat] at hdata
  have hloop := chunkTail_append truncated chunkSent hdata 0 [b]
  rw [Nat.zero_add] at hloop
  by_cases hb : b.last = true
  · have hpayload : b.payload = [] := hlast b (by simp) hb
    have hbytes : chainBytes (data ++ [b]) = chainBytes data := by
      simp [chainBytes_append, hpayload]
    have hany : (data ++ [b]).any SendBuf.last = true := by simp [hb]
    rw [chunkTail, if_pos hb] at hloop
    rw [hbytes, hany, Bool.and_true]
    cases truncated with
    | true =>
      rw [if_pos rfl] at hloop
      refine chunkCreate_of_tail hloop ?_
      rw [hbytes]
      simp
    | false => ?_
    rw [if_neg (by simp)] at hloop
    refine chunkCreate_of_tail hloop ?_
    rw [chainBytes_append, chainBytes_cons, chainBytes_cons, hpayload, Bool.not_false, if_pos rfl]
    -- the two tests for data before the last chunk agree
    cases chunkSent <;> cases chainBytes data <;> simp [lastChunk, sentAfter, SendBuf.payload]
  have hany : (data ++ [b]).any SendBuf.last = false := by
    rw [any_append, any_eq_false.mpr (by simpa using hdata)]
    simpa using hb
  rw [chunkTail, if_neg hb] at hloop
  rw [hany, Bool.and_false, if_neg (by simp)]
  refine chunkCreate_of_tail (hloop.trans ?_) (append_nil _).symm
  simp [chunkTail, chainBytes_append]

/-! ### The machine reads the chunks -/

/-- The state of the machine between two calls: the line end of the data is
still to come. -/
def betweenCalls (chunkSent : Bool) : ByteState := if chunkSent then .dataCr else .start

theorem chunkHeader_eq (chunkSent : Bool) {size : ℕ} (hsize : size ≤ offTMax) :
    chunkHeader chunkSent size =
      (if chunkSent then crlf else []) ++ (hexadecimal size ++ crlf) := by
  have hlen : (hexadecimal size).length ≤ 16 :=
    length_hexadecimal_le (lt_of_le_of_lt hsize (by decide))
  rw [chunkHeader, append_assoc, take_of_length_le]
  have hcrlf : crlf.length = 2 := rfl
  have hfirst : (if chunkSent then crlf else []).length ≤ 2 := by
    cases chunkSent <;> decide
  rw [length_append, length_append, chunkHeaderSize]
  omega

theorem run_chunkOf (limit : ℕ) (chunkSent : Bool) (hfits : data.length ≤ offTMax) :
    run (byteStep limit) (betweenCalls chunkSent) (chunkOf chunkSent data) =
      (data, .running (betweenCalls (sentAfter chunkSent data))) := by
  by_cases hdata : data = []
  · subst hdata
    simp [chunkOf, sentAfter]
  have hpos : 0 < data.length := length_pos_of_ne_nil hdata
  have hsent : sentAfter chunkSent data = true := by simp [sentAfter, hdata]
  have hline : SizeLine data.length (hexadecimal data.length ++ crlf) :=
    ⟨_, [], hexSize_hexadecimal _, lt_of_le_of_lt hfits (by decide), .inl rfl, by simp⟩
  have hsize := run_sizeLine limit hline
  rw [if_neg (by omega)] at hsize
  have hfirst : run (byteStep limit) (betweenCalls chunkSent)
      (if chunkSent then crlf else []) = ([], .running .start) := by
    cases chunkSent <;> rfl
  rw [chunkOf, if_neg hdata, chunkHeader_eq chunkSent hfits, hsent]
  exact run_trans (run_trans hfirst hsize) (run_data limit rfl hpos)

theorem run_lastChunk (chunkSent : Bool) :
    run (byteStep httpTrailerMaxSize) (betweenCalls chunkSent) (lastChunk chunkSent) =
      ([], .halted .last []) := by
  cases chunkSent <;> rfl

/-- **One call of the chunked sender**, read by the machine. -/
theorem chunkCreate_run {call : ChunkCall} (hends : LastEnds call.out) (chunkSent : Bool) :
    run (byteStep httpTrailerMaxSize) (betweenCalls chunkSent)
        (chainBytes (chunkCreate call.truncated chunkSent call.out).2) =
      (chainBytes call.out, if call.ends then .halted .last []
        else .running (betweenCalls (chunkCreate call.truncated chunkSent call.out).1)) := by
  obtain ⟨hsent, hbytes⟩ := chunkCreate_bytes call.truncated chunkSent hends
  have hchunk := run_chunkOf httpTrailerMaxSize chunkSent call.fits
  rw [hsent, hbytes, run_append_running hchunk, ← ChunkCall.ends]
  cases call.ends with
  | true => rw [if_pos rfl, if_pos rfl, run_lastChunk, append_nil]
  | false => rw [if_neg (by simp), if_neg (by simp), run_nil, append_nil]

/-! ### All calls of the sender -/

def callBufs (calls : List ChunkCall) : List SendBuf := calls.flatMap ChunkCall.out

/-- The parts of a sequence that ends with the last buffer. -/
theorem LastEnds.append {rest : List SendBuf} (h : LastEnds (out ++ rest)) :
    LastEnds out ∧ LastEnds rest ∧ (out.any SendBuf.last = true → rest = []) := by
  obtain ⟨hdata, hlast⟩ := h
  by_cases hrest : rest = []
  · subst hrest
    rw [append_nil] at hdata hlast
    exact ⟨⟨hdata, hlast⟩, ⟨by simp, by simp⟩, fun _ => rfl⟩
  rw [dropLast_append_of_ne_nil hrest] at hdata
  have hout : ∀ b ∈ out, b.last = false := fun b hb => hdata b (mem_append_left _ hb)
  refine ⟨⟨fun b hb => hout b (dropLast_subset _ hb), ?_⟩, ⟨?_, ?_⟩, ?_⟩
  · exact fun b hb => hlast b (mem_append_left _ hb)
  · exact fun b hb => hdata b (mem_append_right _ hb)
  · exact fun b hb => hlast b (mem_append_right _ hb)
  · intro hany
    obtain ⟨b, hb, hlast'⟩ := any_eq_true.mp hany
    rw [hout b hb] at hlast'
    cases hlast'

variable {calls : List ChunkCall}

theorem chunkSends_empty (chunkSent : Bool) (h : callBufs calls = []) :
    chunkSends chunkSent calls = [] := by
  induction calls with
  | nil => rfl
  | cons call calls ih => ?_
  obtain ⟨hcall, hcalls⟩ := append_eq_nil_iff.mp h
  rw [chunkSends, hcall]
  exact ih hcalls

/-- The calls leave the machine halted after the end of the body, and running
without it. -/
theorem chunkSends_run (hends : LastEnds (callBufs calls)) (chunkSent : Bool) :
    if calls.any ChunkCall.ends then
      run (byteStep httpTrailerMaxSize) (betweenCalls chunkSent) (chunkSends chunkSent calls) =
        (chainBytes (callBufs calls), .halted .last [])
    else ∃ s,
      run (byteStep httpTrailerMaxSize) (betweenCalls chunkSent) (chunkSends chunkSent calls) =
        (chainBytes (callBufs calls), .running s) := by
  induction calls generalizing chunkSent with
  | nil => exact ⟨_, rfl⟩
  | cons call calls ih => ?_
  obtain ⟨hout, hrest, hnone⟩ := LastEnds.append hends
  have hcall := chunkCreate_run hout chunkSent
  have hbytes : chainBytes (callBufs (call :: calls)) =
      chainBytes call.out ++ chainBytes (callBufs calls) := chainBytes_append _ _
  rw [any_cons, chunkSends, hbytes]
  dsimp only
  cases hend : call.ends with
  | true =>
    -- nothing follows the last buffer
    have hnil : callBufs calls = [] := hnone (Bool.and_eq_true_iff.mp hend).2
    rw [hend, if_pos rfl] at hcall
    rw [hnil, chunkSends_empty _ hnil, Bool.true_or, if_pos rfl, append_nil, hcall]
    simp
  | false => ?_
  rw [hend, if_neg (by simp)] at hcall
  rw [Bool.false_or, run_append_running hcall]
  have hmore := ih hrest (chunkCreate call.truncated chunkSent call.out).1
  split_ifs at hmore ⊢ with hany
  · rw [hmore]
  obtain ⟨s, hs⟩ := hmore
  exact ⟨s, by rw [hs]⟩

/-- What the calls of the chunk parser give: its state and the data so far. -/
def decoded : Streaming.Step (HttpChunkParse × List Bytes) ChunkParsed → HttpChunkParse × Bytes
  | .more (hcp, out) => (hcp, out.flatten)
  | .stop r => (r.hcp, r.out.flatten)

/-- **Round trip of the chunked sender.**  The bytes that the sender writes for
any calls, read by the chunk parser over any cut of the stream, give the data
of the buffers in order; the parser sees no error, and it reports the end
exactly if the last buffer was sent in a response that was not truncated. -/
theorem chunkSends_roundTrip (calls : List ChunkCall) (hends : LastEnds (callBufs calls))
    (reads : List (List Bytes)) (hreads : reads.flatten.flatten = chunkSends false calls) :
    (decoded (chunkReads reads)).2 = chainBytes (callBufs calls) ∧
      (decoded (chunkReads reads)).1.chunkError = false ∧
      ((decoded (chunkReads reads)).1.last = true ↔
        ∃ call ∈ calls, call.truncated = false ∧ ∃ b ∈ call.out, b.last = true) := by
  have hrun := chunkSends_run hends false
  have hiff : calls.any ChunkCall.ends = true ↔
      ∃ call ∈ calls, call.truncated = false ∧ ∃ b ∈ call.out, b.last = true := by
    simp [ChunkCall.ends]
  rw [← hiff, ← hreads] at *
  cases hany : calls.any ChunkCall.ends with
  | true =>
    rw [hany, if_pos rfl] at hrun
    obtain ⟨r, hr, hout, -, hlast, herror⟩ := chunkReads_halted hrun
    rw [hr]
    exact ⟨hout, herror, by simp [decoded, hlast]⟩
  | false => ?_
  rw [hany, if_neg (by simp)] at hrun
  obtain ⟨s, hs⟩ := hrun
  obtain ⟨hcp, out, hr, hout, hlast, herror⟩ := chunkReads_running hs
  rw [hr]
  exact ⟨hout, herror, by simp [decoded, hlast]⟩

/-- Two calls with data, a file among them, and a call with the last buffer. -/
def helloCalls : List ChunkCall :=
  [⟨false, [{ body := .mem (str "he") }, { body := .file (str "llo") }], by decide⟩,
    ⟨false, [{ body := .mem (str ", world") }, { body := .sync, last := true }], by decide⟩]

theorem chunkSends_roundTrip_hello :
    chunkSends false helloCalls = str "5\r\nhello\r\n7\r\n, world\r\n0\r\n\r\n" ∧
      (decoded (chunkReads [[str "5\r\nhel", str "lo\r\n7\r"],
        [str "\n, world\r\n0\r\n\r\n"]])).2 = str "hello, world" := by
  have hbytes : chunkSends false helloCalls =
      str "5\r\nhello\r\n7\r\n, world\r\n0\r\n\r\n" := by decide
  refine ⟨hbytes, ?_⟩
  have hround := chunkSends_roundTrip helloCalls (by decide)
    [[str "5\r\nhel", str "lo\r\n7\r"], [str "\n, world\r\n0\r\n\r\n"]]
    (by rw [hbytes]; decide)
  rw [hround.1]
  decide

end FreeUnit
