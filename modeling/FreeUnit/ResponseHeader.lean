/-
The sending of a response header: `nxt_http_request_header_send` with what it
calls, and `nxt_h1p_request_header_send`.

* `mergeVary`, `applyNegotiation` — what the choice of a content coding changes
  in the fields, with the choice itself as a parameter;
* `h1pRequestHeaderSend` — the bytes; `h1pRequestHeaderSend_bytes` says which
  field lines they are.

Failed allocations and failed template queries are left out.
-/
import FreeUnit.FieldLines
import FreeUnit.PeerResponse

namespace FreeUnit

open List Option

/-! ### Configured fields -/

/-- `nxt_http_set_headers_unsafe`, for a value or the null that removes a field. -/
def setHeadersUnsafe : Option Bytes → Bool
  | none => false
  | some value => value.any fun c => (c < 0x20 && c != 0x09) || c == 0x7F

/-- One key of `response_headers`, resolved. -/
def setHeader (fields : List HttpField) (key : Bytes × Option Bytes) : List HttpField :=
  if setHeadersUnsafe key.2 then fields
  else
    match key.2 with
    | some value =>
      if shown key.1 fields = [] then fields ++ [{ name := key.1, value := value, hash := 0 }]
      else modifyShown key.1 (fun f => { f with value := value }) fields
    | none => modifyShown key.1 (fun f => { f with skip := true }) fields

/-- `nxt_http_set_headers`, with the keys of the action. -/
def setHeaders (keys : List (Bytes × Option Bytes)) (r : Response) : Response :=
  if r.status < 200 ∨ r.status ≥ 400 then r
  else { r with fields := keys.foldl setHeader r.fields }

/-! ### Content coding -/

def acceptEncoding : Bytes := str "Accept-Encoding"

/-- The value of a Vary field that names Accept-Encoding, too. -/
def varyValue (value : Bytes) : Bytes :=
  if trimBlanks value = str "*" then value
  else if value = [] then acceptEncoding
  else if (value.splitOn 0x2C).any fun tok => strcasestrEq (trimBlanks tok) acceptEncoding then
    value
  else value.rdropWhile (fun c => isBlank c || c == 0x2C) ++ str ", " ++ acceptEncoding

def mergeVary (r : Response) : Response :=
  if shown (str "Vary") r.fields = [] then r.add (str "Vary") acceptEncoding
  else
    { r with
      fields := modifyShown (str "Vary") (fun f => { f with value := varyValue f.value })
        r.fields }

def weakenEtag (r : Response) : Response :=
  { r with
    fields := modifyShown (str "ETag")
      (fun f => if f.value.take 2 = str "W/" then f else { f with value := str "W/" ++ f.value })
      r.fields }

/-- `nxt_http_comp_set_header`, for a response of an application. -/
def compSetHeader (token : Bytes) (r : Response) : Response :=
  let r := r.add (str "Content-Encoding") token
  { r with
    contentLength := .none
    contentLengthN := none
    fields := skipFields lengthName r.fields }

/-- What `nxt_http_comp_check_acceptable` and `nxt_http_comp_apply_compression`
choose: nothing to choose, no acceptable coding, no compression after a choice,
or the coding of a compressor. -/
inductive Negotiation where
  | none
  | notAcceptable
  | identity
  | coded (token : Bytes)
  deriving DecidableEq, Repr

/-- The changes that the choice makes, but for the status 406. -/
def applyNegotiation : Negotiation → Response → Response
  | .none, r => r
  | .notAcceptable, r => { r with varyAcceptEncoding := true }
  | .identity, r => mergeVary { r with varyAcceptEncoding := true }
  | .coded token, r =>
    { weakenEtag (compSetHeader token (mergeVary { r with varyAcceptEncoding := true })) with
      coded := true }

/-! ### The request layer -/

/-- What the sending reads of the request, its connection and the
configuration. -/
structure SendContext where
  setHeaders : List (Bytes × Option Bytes) := []
  serverString : Bytes := str "Unit"
  dateString : Bytes := []
  head : Bool := false
  websocketHandshake : Bool := false
  websocketAccept : Bytes := []
  http11 : Bool := true
  keepalive : Bool := true
  bodyHandler : Bool := true

def requestIsBodyless (ctx : SendContext) (status : HttpStatus) : Bool :=
  if ctx.websocketHandshake ∧ status = 101 then false
  else if status ≥ 100 ∧ status < 200 then true
  else requestIsBodylessFinal ctx.head status

def dropFramingFields (fields : List HttpField) : List HttpField :=
  fields.map fun f =>
    if strcasestrEq f.name lengthName || strcasestrEq f.name codingName then
      { f with skip := true } else f

def framingForbidden (ctx : SendContext) (status : HttpStatus) : Bool :=
  requestIsBodyless ctx status && (status < 200 || status == 204)

/-- A response without a body and, for 1xx and 204, without framing fields. -/
def dropFraming (ctx : SendContext) (r : Response) : Response :=
  if framingForbidden ctx r.status then
    { r with
      fields := dropFramingFields r.fields
      contentLength :=
        match r.contentLength with
        | .peer _ => .peer true
        | slot => slot
      contentLengthN := none }
  else r

def addServerFields (ctx : SendContext) (r : Response) : Response :=
  let r := r.add (str "Server") ctx.serverString
  let r := if r.date then r else { r.add (str "Date") ctx.dateString with date := true }
  match r.contentLengthN with
  | none => r
  | some n =>
    if r.lengthUnset then
      { r.add (str "Content-Length") (decimal n) with contentLength := .stored r.fields.length }
    else r

/-- `nxt_http_request_header_send`, up to the call of the protocol layer. -/
def requestHeaderSend (ctx : SendContext) (r : Response) : Response :=
  let r := setHeaders ctx.setHeaders r
  let r := if r.varyAcceptEncoding then mergeVary r else r
  let r := if r.coded then { r with fields := skipFields (str "Accept-Ranges") r.fields } else r
  addServerFields ctx (dropFraming ctx r)

/-! ### The protocol layer -/

def httpInformational : List Bytes :=
  [str "HTTP/1.1 100 Continue\r\n",
    str "HTTP/1.1 101 Switching Protocols\r\n"]

def httpSuccess : List Bytes :=
  [str "HTTP/1.1 200 OK\r\n",
    str "HTTP/1.1 201 Created\r\n",
    str "HTTP/1.1 202 Accepted\r\n",
    str "HTTP/1.1 203 Non-Authoritative Information\r\n",
    str "HTTP/1.1 204 No Content\r\n",
    str "HTTP/1.1 205 Reset Content\r\n",
    str "HTTP/1.1 206 Partial Content\r\n"]

def httpRedirection : List Bytes :=
  [str "HTTP/1.1 300 Multiple Choices\r\n",
    str "HTTP/1.1 301 Moved Permanently\r\n",
    str "HTTP/1.1 302 Found\r\n",
    str "HTTP/1.1 303 See Other\r\n",
    str "HTTP/1.1 304 Not Modified\r\n",
    str "HTTP/1.1 307 Temporary Redirect\r\n",
    str "HTTP/1.1 308 Permanent Redirect\r\n"]

def httpClientError : List Bytes :=
  [str "HTTP/1.1 400 Bad Request\r\n",
    str "HTTP/1.1 401 Unauthorized\r\n",
    str "HTTP/1.1 402 Payment Required\r\n",
    str "HTTP/1.1 403 Forbidden\r\n",
    str "HTTP/1.1 404 Not Found\r\n",
    str "HTTP/1.1 405 Method Not Allowed\r\n",
    str "HTTP/1.1 406 Not Acceptable\r\n",
    str "HTTP/1.1 407 Proxy Authentication Required\r\n",
    str "HTTP/1.1 408 Request Timeout\r\n",
    str "HTTP/1.1 409 Conflict\r\n",
    str "HTTP/1.1 410 Gone\r\n",
    str "HTTP/1.1 411 Length Required\r\n",
    str "HTTP/1.1 412 Precondition Failed\r\n",
    str "HTTP/1.1 413 Payload Too Large\r\n",
    str "HTTP/1.1 414 URI Too Long\r\n",
    str "HTTP/1.1 415 Unsupported Media Type\r\n",
    str "HTTP/1.1 416 Range Not Satisfiable\r\n",
    str "HTTP/1.1 417 Expectation Failed\r\n",
    str "HTTP/1.1 418 I\x27m a teapot\r\n",
    str "HTTP/1.1 419 \r\n",
    str "HTTP/1.1 420 \r\n",
    str "HTTP/1.1 421 Misdirected Request\r\n",
    str "HTTP/1.1 422 Unprocessable Entity\r\n",
    str "HTTP/1.1 423 Locked\r\n",
    str "HTTP/1.1 424 Failed Dependency\r\n",
    str "HTTP/1.1 425 \r\n",
    str "HTTP/1.1 426 Upgrade Required\r\n",
    str "HTTP/1.1 427 \r\n",
    str "HTTP/1.1 428 \r\n",
    str "HTTP/1.1 429 \r\n",
    str "HTTP/1.1 430 \r\n",
    str "HTTP/1.1 431 Request Header Fields Too Large\r\n"]

def httpNginxError : List Bytes :=
  [str "HTTP/1.1 400 The plain HTTP request was sent to HTTPS port\r\n"]

def httpServerError : List Bytes :=
  [str "HTTP/1.1 500 Internal Server Error\r\n",
    str "HTTP/1.1 501 Not Implemented\r\n",
    str "HTTP/1.1 502 Bad Gateway\r\n",
    str "HTTP/1.1 503 Service Unavailable\r\n",
    str "HTTP/1.1 504 Gateway Timeout\r\n",
    str "HTTP/1.1 505 HTTP Version Not Supported\r\n"]

/-- The line of a table that starts with the status `first`. -/
def statusEntry (first : HttpStatus) (table : List Bytes) (n : HttpStatus) : Option Bytes :=
  if first ≤ n then table[n - first]? else none

/-- A number as `%03d` prints it, up to 999. -/
def threeDigits (n : ℕ) : Bytes :=
  [0x30 + UInt8.ofNat (n / 100), 0x30 + UInt8.ofNat (n / 10 % 10), 0x30 + UInt8.ofNat (n % 10)]

def statusLine (n : HttpStatus) : Bytes :=
  ((statusEntry 100 httpInformational n).or <|
    (statusEntry 200 httpSuccess n).or <|
    (statusEntry 300 httpRedirection n).or <|
    (statusEntry 400 httpClientError n).or <|
    (statusEntry 497 httpNginxError n).or <|
    statusEntry 500 httpServerError n).getD <|
    if n ≤ 999 then str "HTTP/1.1 " ++ threeDigits n ++ str " \r\n"
    else str "HTTP/1.1 500 Internal Server Error\r\n"

/-- The index into the texts `connection`. -/
inductive ConnectionText where
  | close | keepAlive | upgrade
  deriving DecidableEq, Repr

def ConnectionText.text : ConnectionText → Bytes
  | .close => str "Connection: close\r\n"
  | .keepAlive => str "Connection: keep-alive\r\n"
  | .upgrade => str "Upgrade: websocket\r\nConnection: Upgrade\r\nSec-WebSocket-Accept: "

/-- What `nxt_h1p_request_header_send` writes, and what it sets in
`nxt_h1proto_t`. -/
structure SentHeader where
  bytes : Bytes
  chunked : Bool
  keepalive : Bool
  websocket : Bool
  deriving DecidableEq, Repr

section

variable (ctx : SendContext) (r : Response)

def Response.upgrades : Bool := ctx.websocketHandshake && r.status == 101

/-- `h1p->chunked` -/
def Response.chunks : Bool :=
  !r.upgrades ctx && r.lengthUnset && ctx.http11 && !requestIsBodyless ctx r.status &&
    r.status != 304 && r.status != 204 && ctx.bodyHandler

/-- `h1p->keepalive` -/
def Response.keepsAlive : Bool :=
  if r.upgrades ctx then false
  else if r.lengthUnset && !ctx.http11 && !requestIsBodyless ctx r.status then false
  else ctx.keepalive

def Response.connection : Option ConnectionText :=
  if r.upgrades ctx then some .upgrade
  else if ctx.http11 ^^ r.keepsAlive ctx then
    some (if r.keepsAlive ctx then .keepAlive else .close)
  else none

def h1pRequestHeaderSend : SentHeader where
  bytes := statusLine r.status ++
    (r.fields.flatMap fun f =>
      if f.skip then [] else f.name ++ str ": " ++ f.value ++ str "\r\n") ++
    ((r.connection ctx).map (·.text)).getD [] ++
    (if r.upgrades ctx then ctx.websocketAccept ++ str "\r\n" else []) ++
    (if r.status = 426 then str "Sec-WebSocket-Version: 13\r\n" else []) ++
    (if r.chunks ctx then str "Transfer-Encoding: chunked\r\n" else []) ++
    str "\r\n"
  chunked := r.chunks ctx
  keepalive := r.keepsAlive ctx
  websocket := r.upgrades ctx

/-! ### The header section -/

def ConnectionText.fields (accept : Bytes) : ConnectionText → List HttpField
  | .close => [.ofLine (str "Connection") (str "close")]
  | .keepAlive => [.ofLine (str "Connection") (str "keep-alive")]
  | .upgrade =>
    [.ofLine (str "Upgrade") (str "websocket"), .ofLine (str "Connection") (str "Upgrade"),
      .ofLine (str "Sec-WebSocket-Accept") accept]

/-- The fields that the HTTP/1 layer adds to those of the response. -/
def protocolFields : List HttpField :=
  ((r.connection ctx).map (·.fields ctx.websocketAccept)).getD [] ++
    (if r.status = 426 then [.ofLine (str "Sec-WebSocket-Version") (str "13")] else []) ++
    (if r.chunks ctx then [.ofLine codingName (str "chunked")] else [])

def sentFields : List HttpField := r.fields.filter (fun f => !f.skip) ++ protocolFields ctx r

theorem fieldLines_append (l m : List HttpField) :
    fieldLines (l ++ m) = fieldLines l ++ fieldLines m := flatMap_append

/-- The lines of the fields that are not skipped. -/
theorem flatMap_shown_line (fields : List HttpField) : (fields.flatMap fun f =>
      if f.skip then [] else f.name ++ str ": " ++ f.value ++ str "\r\n") =
      fieldLines (fields.filter fun f => !f.skip) := by
  induction fields with
  | nil => rfl
  | cons f fields ih => ?_
  rw [flatMap_cons, ih]
  cases hskip : f.skip with
  | true => rw [filter_cons_of_neg (by simp [hskip]), if_pos rfl, nil_append]
  | false =>
    rw [filter_cons_of_pos (by simp [hskip]), if_neg (by simp)]
    rfl

/-- The text of the connection lines, with the accept key where one belongs. -/
theorem connection_lines : ((r.connection ctx).map (·.text)).getD [] ++
        (if r.upgrades ctx then ctx.websocketAccept ++ str "\r\n" else []) =
      fieldLines (((r.connection ctx).map (·.fields ctx.websocketAccept)).getD []) := by
  rw [Response.connection]
  cases hup : r.upgrades ctx with
  | true =>
    have hfirst : ConnectionText.upgrade.text =
        fieldLines [.ofLine (str "Upgrade") (str "websocket"),
          .ofLine (str "Connection") (str "Upgrade")] ++ str "Sec-WebSocket-Accept: " := by
      decide
    have hlast : HttpField.line (.ofLine (str "Sec-WebSocket-Accept") ctx.websocketAccept) =
        str "Sec-WebSocket-Accept: " ++ (ctx.websocketAccept ++ str "\r\n") := by
      rw [HttpField.line, HttpField.ofLine, ← append_assoc]
      rfl
    rw [if_pos rfl, if_pos rfl, map_some, map_some, getD_some,
      getD_some, hfirst, append_assoc, ← hlast, ConnectionText.fields]
    simp [fieldLines]
  | false => ?_
  have hclose : ConnectionText.close.text =
      fieldLines [.ofLine (str "Connection") (str "close")] := by decide
  have hkeep : ConnectionText.keepAlive.text =
      fieldLines [.ofLine (str "Connection") (str "keep-alive")] := by decide
  simp only [Bool.false_eq_true, if_false, append_nil]
  cases ctx.http11 ^^ r.keepsAlive ctx with
  | false => rfl
  | true => ?_
  cases r.keepsAlive ctx with
  | false => exact hclose
  | true => exact hkeep

/-- **The bytes of a header** are the status line, the lines of its fields and
an empty line. -/
theorem h1pRequestHeaderSend_bytes : (h1pRequestHeaderSend ctx r).bytes =
      statusLine r.status ++ fieldLines (sentFields ctx r) ++ crlf := by
  have hversion : (if r.status = 426 then str "Sec-WebSocket-Version: 13\r\n" else []) =
      fieldLines (if r.status = 426 then [.ofLine (str "Sec-WebSocket-Version") (str "13")]
        else []) := by
    split_ifs
    · decide
    · rfl
  have hchunked : (if r.chunks ctx then str "Transfer-Encoding: chunked\r\n" else []) =
      fieldLines (if r.chunks ctx then [.ofLine codingName (str "chunked")] else []) := by
    split_ifs
    · decide
    · rfl
  rw [sentFields, protocolFields, fieldLines_append, fieldLines_append, fieldLines_append,
    ← connection_lines, ← hversion, ← hchunked, ← flatMap_shown_line, h1pRequestHeaderSend]
  simp only [append_assoc]
  rfl

end

end FreeUnit
