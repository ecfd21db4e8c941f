/-
The fields of a request header: `nxt_h1p_header_process` and the handlers of
`nxt_h1p_fields`.

* `validateHost` — `nxt_http_validate_host`, and the hosts that it accepts.

The trace context fields of OpenTelemetry are left out, and so are failed
allocations.
-/
import FreeUnit.FieldTable

namespace FreeUnit

/-- `NXT_HTTP_BAD_REQUEST` and the other statuses the request path answers with. -/
def HttpStatus.badRequest : HttpStatus := 400
def HttpStatus.lengthRequired : HttpStatus := 411
def HttpStatus.payloadTooLarge : HttpStatus := 413
def HttpStatus.upgradeRequired : HttpStatus := 426
def HttpStatus.headerFieldsTooLarge : HttpStatus := 431
def HttpStatus.toHttps : HttpStatus := 497
def HttpStatus.notImplemented : HttpStatus := 501
def HttpStatus.versionNotSupported : HttpStatus := 505

/-! ### Numbers -/

/-- A `size_t` as a `nxt_off_t`. -/
def offT (n : ℕ) : ℤ := if n < 2 ^ 63 then n else (n : ℤ) - 2 ^ 64

/-! ### The host -/

/-- The states of `nxt_http_validate_host`. -/
inductive HostState where
  | usual | literal | rest
  deriving DecidableEq, Repr

/-- The variables of `nxt_http_validate_host`. -/
structure HostScan where
  state : HostState := .usual
  dotPos : ℕ
  hostLength : ℕ
  lowcase : Bool := false

/-- The loop over the bytes from position `i` on. -/
def hostLoop : ℕ → HostScan → Bytes → Except HttpStatus HostScan
  | _, st, [] => .ok st
  | i, st, ch :: h =>
    if ch > 0x5D /- ] -/ then hostLoop (i + 1) st h
    else if ch = 0x2E /- . -/ then
      if st.dotPos + 1 = i then .error .badRequest
      else hostLoop (i + 1) { st with dotPos := i } h
    else if ch = 0x3A /- : -/ then
      if st.state = .usual then hostLoop (i + 1) { st with hostLength := i, state := .rest } h
      else hostLoop (i + 1) st h
    else if ch = 0x5B /- [ -/ then
      hostLoop (i + 1) (if i = 0 then { st with state := .literal } else st) h
    else if ch = 0x5D then
      if st.state = .literal then
        hostLoop (i + 1) { st with hostLength := i + 1, state := .rest } h
      else hostLoop (i + 1) st h
    else if ch = 0x2F /- / -/ then .error .badRequest
    else if 0x41 ≤ ch ∧ ch ≤ 0x5A then hostLoop (i + 1) { st with lowcase := true } h
    else hostLoop (i + 1) st h

def validateHost (host : Bytes) : Except HttpStatus Bytes :=
  match hostLoop 0 { dotPos := host.length, hostLength := host.length } host with
  | .error status => .error status
  | .ok st =>
    let length := if st.dotPos + 1 = st.hostLength then st.hostLength - 1 else st.hostLength
    let h := host.take length
    .ok (if st.lowcase then h.map lowcase else h)

theorem hostLoop_cons (i : ℕ) (st : HostScan) (ch : UInt8) (h : Bytes) : ∃ st₁,
    hostLoop i st (ch :: h) = (if ch = 0x2F ∨ ch = 0x2E ∧ st.dotPos + 1 = i then
      .error .badRequest else hostLoop (i + 1) st₁ h) ∧
    st₁.dotPos = if ch = 0x2E then i else st.dotPos := by
  have hhigh : ∀ c : UInt8, c > 0x5D → c ≠ 0x2F ∧ c ≠ 0x2E := by decide +kernel
  rw [hostLoop]
  split_ifs <;> simp_all <;>
    first | exact ⟨_, rfl, rfl⟩ | exact ⟨{ st with dotPos := i }, rfl⟩

/-- The bytes behind `p`; the last dot is before position `i`, or there is none. -/
theorem hostLoop_ok_iff (p : UInt8) {i : ℕ} {st : HostScan} {h : Bytes}
    (hp : p = 0x2E ↔ st.dotPos + 1 = i) (hdot : st.dotPos < i ∨ st.dotPos = i + h.length) :
    (∃ st', hostLoop i st h = .ok st') ↔
      0x2F ∉ h ∧ (p :: h).IsChain (fun a b => a = 0x2E → b ≠ 0x2E) := by
  induction h generalizing i st p with
  | nil => simp [hostLoop]
  | cons ch h ih => ?_
  rw [List.length_cons] at hdot
  obtain ⟨st₁, hloop, hst⟩ := hostLoop_cons i st ch h
  rw [hloop, List.mem_cons, List.isChain_cons_cons, hp]
  split_ifs with hbad
  · simp only [exists_false, false_iff]
    tauto
  rw [ih ch (by split_ifs at hst <;> simp_all; omega) (by split_ifs at hst <;> omega)]
  tauto

/-- **A host is accepted** exactly if it has no slash and no two dots in a row. -/
theorem validateHost_ok_iff (host : Bytes) : (∃ h, validateHost host = .ok h) ↔
    0x2F ∉ host ∧ host.IsChain (fun a b => a = 0x2E → b ≠ 0x2E) := by
  have hloop := @hostLoop_ok_iff 0 0 { dotPos := host.length, hostLength := host.length } host
    (by simp) (by simp)
  rw [validateHost]
  cases hl : hostLoop 0 { dotPos := host.length, hostLength := host.length } host with
  | error | ok => simp_all [List.isChain_cons]

/-! ### The handlers -/

/-- `nxt_http_te_t` -/
inductive TransferEncoding where
  | none | chunked | unsupported
  deriving DecidableEq, Repr

/-- What the handlers write of `nxt_h1proto_t` and `nxt_http_request_t`.  A
length of -1 is `none`. -/
structure H1Request where
  parser : RequestParse
  keepalive : Bool
  connectionUpgrade : Bool := false
  upgradeWebsocket : Bool := false
  websocketVersionOk : Bool := false
  websocketKey : Option HttpField := none
  websocketHandshake : Bool := false
  transferEncoding : TransferEncoding := .none
  continuePending : Bool := false
  host : Option Bytes := none
  chunkedField : Option HttpField := none
  contentLength : Option HttpField := none
  contentLengthN : Option ℕ := none
  cookie : Option HttpField := none
  referer : Option HttpField := none
  userAgent : Option HttpField := none
  contentType : Option HttpField := none
  authorization : Option HttpField := none

/-- The settings of `nxt_socket_conf_t` that the reading of requests uses, with
the defaults of `nxt_router_conf_create`. -/
structure SocketConf where
  headerBufferSize : ℕ := 2048
  largeHeaderBufferSize : ℕ := 8192
  largeHeaderBuffers : ℕ := 4
  discardUnsafeFields : Bool := true
  bodyBufferSize : ℕ := 16 * 1024
  maxBodySize : ℕ := 8 * 1024 * 1024
  chunkedTransform : Bool := false
  tls : Bool := false

/-- `nxt_h1p_is_http11`: any minor version but 0. -/
def RequestParse.isHttp11 (rp : RequestParse) : Bool := rp.version.getLast? != some 0x30

/-- `nxt_memcasestrn`: the text occurs, in any letter case. -/
def memcasestrn (s text : Bytes) : Bool :=
  s.tails.any fun t => (text.map lowcase).isPrefixOf (t.map lowcase)

/-- The entries of `nxt_h1p_fields`. -/
inductive H1Handler where
  | connection | upgrade | websocketKey | websocketVersion | transferEncoding | expect
  | host | cookie | referer | userAgent | contentType | contentLength | authorization
  deriving DecidableEq, Repr

def h1pFields : List (Bytes × H1Handler) :=
  [(str "Connection", .connection), (str "Upgrade", .upgrade),
    (str "Sec-WebSocket-Key", .websocketKey), (str "Sec-WebSocket-Version", .websocketVersion),
    (str "Transfer-Encoding", .transferEncoding), (str "Expect", .expect),
    (str "Host", .host), (str "Cookie", .cookie), (str "Referer", .referer),
    (str "User-Agent", .userAgent), (str "Content-Type", .contentType),
    (str "Content-Length", .contentLength), (str "Authorization", .authorization)]

def h1pConnection (r : H1Request) (f : HttpField) : H1Request :=
  let r := if memcasestrn f.value (str "close") then { r with keepalive := false } else r
  let r := if memcasestrn f.value (str "keep-alive") then { r with keepalive := true } else r
  if memcasestrn f.value (str "upgrade") then { r with connectionUpgrade := true } else r

def h1pTransferEncoding (r : H1Request) (f : HttpField) :
    Except HttpStatus (H1Request × HttpField) :=
  let f := { f with skip := true, hopbyhop := true }
  if f.value = str "chunked" then
    if r.chunkedField.isSome then .error .badRequest
    else .ok ({ r with transferEncoding := .chunked, chunkedField := some f }, f)
  else .ok ({ r with transferEncoding := .unsupported }, f)

def requestHost (r : H1Request) (f : HttpField) : Except HttpStatus (H1Request × HttpField) :=
  if r.host.isSome then .error .badRequest
  else
    match validateHost f.value with
    | .error status => .error status
    | .ok host => .ok ({ r with host := some host }, f)

def requestContentLength (skcf : SocketConf) (r : H1Request) (f : HttpField) :
    Except HttpStatus (H1Request × HttpField) :=
  if r.contentLength.isSome then .error .badRequest
  else
    let r := { r with contentLength := some f }
    match offTParse f.value with
    | none => .error .badRequest
    | some n =>
      let r := { r with contentLengthN := some n }
      if (n : ℤ) > offT skcf.maxBodySize then .error .payloadTooLarge else .ok (r, f)

/-- The handlers of `nxt_h1p_fields`. -/
def h1pHandler (skcf : SocketConf) : H1Handler → H1Request → HttpField →
    Except HttpStatus (H1Request × HttpField)
  | .connection, r, f => .ok (h1pConnection r f, { f with hopbyhop := true })
  | .upgrade, r, f =>
    .ok (if strcasestrEq f.value (str "websocket") then { r with upgradeWebsocket := true }
      else r, f)
  | .websocketKey, r, f =>
    .ok (if f.value.length = 24 then { r with websocketKey := some f } else r, f)
  | .websocketVersion, r, f =>
    .ok (if f.value = str "13" then { r with websocketVersionOk := true } else r, f)
  | .transferEncoding, r, f => h1pTransferEncoding r f
  | .expect, r, f =>
    .ok (if strcasestrEq f.value (str "100-continue") ∧ r.parser.isHttp11 then
        { r with continuePending := true } else r, { f with hopbyhop := true })
  | .host, r, f => requestHost r f
  | .cookie, r, f => .ok ({ r with cookie := some f }, f)
  | .referer, r, f => .ok ({ r with referer := some f }, f)
  | .userAgent, r, f => .ok ({ r with userAgent := some f }, f)
  | .contentType, r, f => .ok ({ r with contentType := some f }, f)
  | .contentLength, r, f => requestContentLength skcf r f
  | .authorization, r, f => .ok ({ r with authorization := some f }, f)

/-- The checks of a WebSocket handshake in `nxt_h1p_header_process`. -/
def websocketCheck (r : H1Request) : Except HttpStatus H1Request :=
  if r.connectionUpgrade ∧ r.upgradeWebsocket then
    if r.parser.method ≠ str "GET" then .error .badRequest
    else if r.parser.version.getLast? ≠ some 0x31 then .error .badRequest
    else if r.websocketKey.isNone then .error .badRequest
    else if ¬ r.websocketVersionOk then .error .upgradeRequired
    else .ok { r with websocketHandshake := true }
  else .ok r

/-- `nxt_h1p_header_process`, with the fields as the handlers leave them. -/
def h1pHeaderProcess (skcf : SocketConf) (r : H1Request) :
    Except HttpStatus (H1Request × List HttpField) :=
  match fieldsProcess h1pFields (h1pHandler skcf) r r.parser.fields with
  | .error status => .error status
  | .ok (r, fields) =>
    match websocketCheck r with
    | .error status => .error status
    | .ok r => .ok (r, fields)

end FreeUnit
