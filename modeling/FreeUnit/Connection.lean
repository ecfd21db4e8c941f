/-
A keep-alive connection: headers, bodies and the bytes between them.

`nxt_h1p_conn_request_header_parse`, `nxt_h1p_request_body_read`,
`nxt_h1p_conn_request_body_read`, `nxt_h1p_complete_buffers` and
`nxt_h1p_keepalive` move the bytes of the stream through a header buffer,
larger header buffers, a memory or file body and the buffers kept for the
request.  The model keeps these buffers with their sizes: a read gets at most
the room of the buffer that the connection reads into.

* `connRun` — the connection over a stream, for any sizes of its reads.

Timers, rates, failed allocations and the `100 Continue` response are outside
the model, and so are connections upgraded to WebSocket.
-/
import FreeUnit.ChunkParse
import FreeUnit.RequestFraming

namespace FreeUnit

/-! ### Buffers -/

/-- A memory buffer: its size, the bytes from `start` to `pos`, and the data
from `pos` to `free`. -/
structure Buf where
  size : ℕ
  start : ℕ := 0
  data : Bytes := []

/-- `nxt_buf_mem_free_size` -/
def Buf.room (b : Buf) : ℕ := b.size - (b.start + b.data.length)

/-- `pos` moved on by `n` bytes. -/
def Buf.skip (b : Buf) (n : ℕ) : Buf :=
  { b with start := b.start + n, data := b.data.drop n }

/-- `pos` moved on to where only `left` is left. -/
def Buf.leave (b : Buf) (left : Bytes) : Buf :=
  { b with start := b.start + (b.data.length - left.length), data := left }

/-- An empty buffer in which at most `rest` bytes have room: `free` and `pos`
stand `rest` bytes before the end, or at the start. -/
def Buf.limited (size rest : ℕ) : Buf :=
  { size := size, start := if rest < size then size - rest else 0 }

/-- `nxt_h1p_header_buffer_test`: a full header buffer is replaced by a large
one, and kept. -/
def headerBufferTest (skcf : SocketConf) (inb : Buf) (buffers : List Buf) :
    Except HttpStatus (Buf × List Buf) :=
  if inb.room = 0 then
    if skcf.largeHeaderBufferSize ≤ inb.data.length ∨
        buffers.length ≥ skcf.largeHeaderBuffers then
      .error .headerFieldsTooLarge
    else .ok ({ size := skcf.largeHeaderBufferSize, data := inb.data }, inb :: buffers)
  else .ok (inb, buffers)

/-! ### The body -/

/-- The body buffer `r->body` while it is read: in memory, in a file with a
memory part, or in a file through the chunk parser. -/
inductive BodyBuf where
  | mem (size : ℕ) (data : Bytes)
  | file (size : ℕ) (file : Bytes) (mem : Buf)
  | chunked (hcp : HttpChunkParse) (file : Bytes) (mem : Buf)

def BodyBuf.room : BodyBuf → ℕ
  | .mem size data => size - data.length
  | .file _ _ b => b.room
  | .chunked _ _ b => b.room

/-- How a step of the body ends: with the complete body, the buffer in
`c->read` and those in `h1p->buffers`; waiting for a read; or with an error. -/
inductive BodyStep where
  | ready (body : Bytes) (read : Option Buf) (buffers : List Buf)
  | wait (b : BodyBuf) (buffers : List Buf)
  | error (status : HttpStatus)

/-- The chunked part of the two body functions: the slices are written to the
file, and `left` is what the parser has not taken. -/
def chunkedBody (skcf : SocketConf) (hcp : HttpChunkParse) (file b : Bytes) :
    Except HttpStatus (HttpChunkParse × Bytes × Bytes) :=
  let r := httpChunkParse hcp [b]
  if r.hcp.chunkError then .error .badRequest
  else
    let file := file ++ r.out.flatten
    -- `nxt_h1p_body_chunks_write` returns early when there is no slice
    if r.out ≠ [] ∧ file.length > skcf.maxBodySize then .error .payloadTooLarge
    else .ok (r.hcp, file, r.left.flatten)

/-- `nxt_h1p_request_body_read`, once the framing is known. -/
def bodyStart (skcf : SocketConf) (framing : Framing) (inb : Buf) (buffers : List Buf) :
    BodyStep :=
  match framing with
  | .none => .ready [] (some inb) buffers
  | .length 0 => .ready [] (some inb) buffers
  | .length n =>
    let size := min inb.data.length n
    let body := inb.data.take size
    let inb := inb.skip size
    let rest := n - size
    if rest = 0 then .ready body (some inb) buffers
    else if n ≤ skcf.bodyBufferSize then .wait (.mem n body) (inb :: buffers)
    else .wait (.file n body (.limited skcf.bodyBufferSize rest)) (inb :: buffers)
  | .chunked =>
    let mem := { size := skcf.bodyBufferSize }
    if inb.data = [] then .wait (.chunked {} [] mem) (inb :: buffers)
    else
      match chunkedBody skcf {} [] inb.data with
      | .error status => .error status
      | .ok (hcp, file, left) =>
        if hcp.last then .ready file (some (inb.leave left)) buffers
        else .wait (.chunked hcp file mem) (inb.leave [] :: buffers)

/-- The bytes behind the body in its buffer go to the last of the buffers
kept, if they fit, or to a new one. -/
def keepRest (skcf : SocketConf) (left : Bytes) (buffers : List Buf) : List Buf :=
  if left = [] then buffers
  else
    let new : Buf := { size := max left.length skcf.headerBufferSize, data := left }
    match buffers with
    | [] => [new]
    | rest :: more =>
      if left.length ≤ rest.room then { rest with data := rest.data ++ left } :: more
      else new :: buffers

/-- `nxt_h1p_conn_request_body_read`, after a read of `d`. -/
def bodyRead (skcf : SocketConf) (b : BodyBuf) (d : Bytes) (buffers : List Buf) : BodyStep :=
  match b with
  | .mem size data =>
    let data := data ++ d
    if size - data.length = 0 then .ready data none buffers else .wait (.mem size data) buffers
  | .file size file mem =>
    let mem := { mem with data := mem.data ++ d }
    let rest := size - file.length
    let n := min mem.data.length rest
    let file := file ++ mem.data.take n
    let rest := rest - n
    let mem := mem.skip n
    if rest = 0 then .ready file none (keepRest skcf mem.data buffers)
    else
      -- the next read must not get more than the rest of the body
      .wait (.file size file (if mem.data = [] then .limited mem.size rest else mem)) buffers
  | .chunked hcp file mem =>
    match chunkedBody skcf hcp file (mem.data ++ d) with
    | .error status => .error status
    | .ok (hcp, file, left) =>
      if hcp.last then .ready file none (keepRest skcf left buffers)
      else .wait (.chunked hcp file { mem with start := 0, data := [] }) buffers

/-! ### The connection -/

structure Delivered where
  parser : RequestParse
  framing : Framing
  body : Bytes

inductive Phase where
  /-- no buffer in `c->read` -/
  | idle
  | header (handler : ParseHandler) (rp : RequestParse) (inb : Buf) (buffers : List Buf)
  | body (r : H1Request) (framing : Framing) (b : BodyBuf) (buffers : List Buf)
  /-- no request is read any more, after an error status or without one -/
  | closed (status : Option HttpStatus)

structure Conn where
  phase : Phase := .idle
  delivered : List Delivered := []

/-- `nxt_h1p_complete_buffers` and the choice of `nxt_h1p_keepalive`: the buffer
that holds bytes of the next request, moved to its start. -/
def completeBuffers (read : Option Buf) (buffers : List Buf) : Option Buf :=
  let inb := match read with
    | some inb => some inb
    | none => buffers.head?
  match inb with
  | none => none
  | some inb => if inb.data = [] then none else some { inb with start := 0 }

section Conn

-- `connTls`: the connection uses TLS; `keep`: the requests whose response leaves
-- the connection open
variable (skcf : SocketConf) (connTls : Bool) (keep : ℕ → Bool)

/-- `nxt_http_parse_request_init` of `nxt_h1p_conn_request_init` -/
def requestInit : RequestParse := httpParseRequestInit skcf.discardUnsafeFields false false

/-- The request is complete: it goes to the request layer, and after its
response the connection is closed or goes on with `next`. -/
def deliver (r : H1Request) (framing : Framing) (body : Bytes) (delivered : List Delivered)
    (next : List Delivered → Conn) : Conn :=
  let delivered' := delivered ++ [⟨r.parser, framing, body⟩]
  if r.keepalive && keep delivered.length then next delivered'
  else { phase := .closed none, delivered := delivered' }

/-- `nxt_h1p_conn_request_header_parse`, and the pipelined requests behind the
header.  Every request takes bytes, so the length of the data and one more is
enough fuel. -/
def connHeader : ℕ → ParseHandler → RequestParse → Buf → List Buf → List Delivered → Conn
  | 0, _, _, _, _, delivered => { phase := .closed none, delivered := delivered }
  | fuel + 1, h, rp, inb, buffers, delivered =>
    match httpParseRequest h rp inb.data with
    | .ok _ _ => { phase := .closed none, delivered := delivered }
    | .again h rp left =>
      match headerBufferTest skcf (inb.leave left) buffers with
      | .error status => { phase := .closed (some status), delivered := delivered }
      | .ok (inb, buffers) => { phase := .header h rp inb buffers, delivered := delivered }
    | .error code _ =>
      let status := match code with
        | .invalid => HttpStatus.badRequest
        | .unsupportedVersion => .versionNotSupported
        | .tooLargeField => .headerFieldsTooLarge
      { phase := .closed (some status), delivered := delivered }
    | .done rp left =>
      match h1pRequestHeader skcf connTls rp with
      | .refused status _ => { phase := .closed (some status), delivered := delivered }
      | .accepted framing r _ =>
        match bodyStart skcf framing (inb.leave left) buffers with
        | .error status => { phase := .closed (some status), delivered := delivered }
        | .wait b buffers => { phase := .body r framing b buffers, delivered := delivered }
        | .ready body read buffers =>
          deliver keep r framing body delivered fun delivered =>
            match completeBuffers read buffers with
            | none => { phase := .idle, delivered := delivered }
            | some inb =>
              connHeader fuel .requestLine (requestInit skcf) inb [] delivered

def connRequest (inb : Buf) (delivered : List Delivered) : Conn :=
  connHeader skcf connTls keep (inb.data.length + 1) .requestLine (requestInit skcf) inb []
    delivered

/-- The ready handler of the connection, after a read of `d`. -/
def connRecv (c : Conn) (d : Bytes) : Conn :=
  match c.phase with
  | .idle => connRequest skcf connTls keep { size := skcf.headerBufferSize, data := d } c.delivered
  | .header h rp inb buffers =>
    let inb := { inb with data := inb.data ++ d }
    connHeader skcf connTls keep (inb.data.length + 1) h rp inb buffers c.delivered
  | .body r framing b buffers =>
    match bodyRead skcf b d buffers with
    | .error status => { phase := .closed (some status), delivered := c.delivered }
    | .wait b buffers => { phase := .body r framing b buffers, delivered := c.delivered }
    | .ready body read buffers =>
      deliver keep r framing body c.delivered fun delivered =>
        match completeBuffers read buffers with
        | none => { phase := .idle, delivered := delivered }
        | some inb => connRequest skcf connTls keep inb delivered
  | .closed _ => c

/-- The room of the buffer that the connection reads into. -/
def Phase.room (skcf : SocketConf) : Phase → ℕ
  | .idle => skcf.headerBufferSize
  | .header _ _ inb _ => inb.room
  | .body _ _ b _ => b.room
  | .closed _ => 0

/-- One read of at most `n` bytes from the socket; `recv` into a buffer without
room returns 0, which ends the connection. -/
def connStep (s : Conn × Bytes) (n : ℕ) : Conn × Bytes :=
  match s.1.phase with
  | .closed _ => s
  | phase =>
    let room := phase.room skcf
    if room = 0 then ({ s.1 with phase := .closed none }, s.2)
    else
      let d := s.2.take (min n room)
      if d = [] then s else (connRecv skcf connTls keep s.1 d, s.2.drop d.length)

/-- A connection over a stream, with the bytes still in the socket. -/
def connRun (stream : Bytes) (reads : List ℕ) : Conn × Bytes :=
  reads.foldl (connStep skcf connTls keep) ({}, stream)

end Conn

end FreeUnit
