/-
The framing of a request body, from the fields of its header.

The handlers of Transfer-Encoding and Content-Length leave their findings in
the request; `nxt_h1p_request_body_read` reads them after all fields.  A later
Transfer-Encoding line overwrites what an earlier one has left.

* `h1pRequestHeader_unambiguous_iff` — when the server uses the one framing of a
  request.
-/
import FreeUnit.RequestFields

namespace FreeUnit

open List

/-! ### From the header to the body -/

inductive Framing where
  | none
  | length (n : ℕ)
  | chunked
  deriving DecidableEq, Repr

/-- The first part of `nxt_h1p_request_body_read`. -/
def bodyFraming (skcf : SocketConf) (r : H1Request) : Except HttpStatus Framing :=
  match r.transferEncoding with
  | .chunked =>
    if ¬ skcf.chunkedTransform then .error .lengthRequired
    else if r.contentLength.isSome ∨ ¬ r.parser.isHttp11 then .error .badRequest
    else .ok .chunked
  | .unsupported => .error .notImplemented
  | .none => .ok (match r.contentLengthN with | none => .none | some n => .length n)

/-- What becomes of a request after its header: it is read on, or refused with
a status and the connection's `keepalive` flag. -/
inductive HeaderOutcome where
  | accepted (framing : Framing) (r : H1Request) (fields : List HttpField)
  | refused (status : HttpStatus) (keepalive : Bool)

/-- The `error` labels of `nxt_h1p_conn_request_header_parse` and
`nxt_h1p_request_body_read`: `h1p->keepalive = 0` and the error response. -/
def h1pError (status : HttpStatus) : HeaderOutcome := .refused status false

/-- `nxt_h1p_conn_request_header_parse` after `NXT_DONE`, up to the decision of
`nxt_h1p_request_body_read`.  `connTls` tells a connection with TLS. -/
def h1pRequestHeader (skcf : SocketConf) (connTls : Bool) (rp : RequestParse) : HeaderOutcome :=
  match h1pHeaderProcess skcf { parser := rp, keepalive := rp.isHttp11 } with
  | .error status => h1pError status
  | .ok (r, fields) =>
    if ¬ connTls ∧ skcf.tls then h1pError .toHttps
    else
      match bodyFraming skcf r with
      | .error status => h1pError status
      | .ok framing => .accepted framing r fields

/-! ### What the handlers leave -/

/-- The name of a handler in `h1pFields`. -/
def H1Handler.name : H1Handler → Bytes
  | .connection => str "Connection"
  | .upgrade => str "Upgrade"
  | .websocketKey => str "Sec-WebSocket-Key"
  | .websocketVersion => str "Sec-WebSocket-Version"
  | .transferEncoding => str "Transfer-Encoding"
  | .expect => str "Expect"
  | .host => str "Host"
  | .cookie => str "Cookie"
  | .referer => str "Referer"
  | .userAgent => str "User-Agent"
  | .contentType => str "Content-Type"
  | .contentLength => str "Content-Length"
  | .authorization => str "Authorization"

theorem h1pFields_nodup : (h1pFields.map fun e => e.1.map lowcase).Nodup := by decide

theorem mem_h1pFields (name : Bytes) (h : H1Handler) : (name, h) ∈ h1pFields ↔ name = h.name := by
  cases h <;> simp [h1pFields, H1Handler.name]

theorem lookup_h1pFields {f : HttpField} (hf : f.WellHashed) (h : H1Handler) :
    lookupField h1pFields f = some h ↔ strcasestrEq f.name h.name := by
  rw [lookupField_eq_some_iff h1pFields_nodup hf]
  simp only [mem_h1pFields, exists_eq_left]

def H1Handler.values (h : H1Handler) (fields : List HttpField) : List Bytes :=
  fieldValues h.name fields

theorem values_snoc (h : H1Handler) (seen : List HttpField) {f : HttpField}
    (hf : f.WellHashed) : h.values (seen ++ [f])
      = h.values seen ++ if lookupField h1pFields f = some h then [f.value] else [] := by
  rw [H1Handler.values, fieldValues_append, H1Handler.values]
  congr 1
  by_cases hname : strcasestrEq f.name h.name
  · rw [if_pos ((lookup_h1pFields hf h).mpr hname)]
    simp [fieldValues, hname]
  rw [if_neg (fun hl => hname ((lookup_h1pFields hf h).mp hl))]
  simp [fieldValues, hname]

def lastEncoding (values : List Bytes) : TransferEncoding :=
  match values.getLast? with
  | none => .none
  | some v => if v = str "chunked" then .chunked else .unsupported

structure RequestView where
  parser : RequestParse
  encoding : TransferEncoding
  hasChunked : Bool
  hasLength : Bool
  length : Option ℕ
  hasHost : Bool
  connectionUpgrade : Bool
  upgradeWebsocket : Bool
  hasWebsocketKey : Bool
  websocketVersionOk : Bool

def H1Request.view (r : H1Request) : RequestView where
  parser := r.parser
  encoding := r.transferEncoding
  hasChunked := r.chunkedField.isSome
  hasLength := r.contentLength.isSome
  length := r.contentLengthN
  hasHost := r.host.isSome
  connectionUpgrade := r.connectionUpgrade
  upgradeWebsocket := r.upgradeWebsocket
  hasWebsocketKey := r.websocketKey.isSome
  websocketVersionOk := r.websocketVersionOk

/-- **What the fields leave**, as a function of the values of each kind. -/
def fieldsView (rp : RequestParse) (fields : List HttpField) : RequestView where
  parser := rp
  encoding := lastEncoding (H1Handler.transferEncoding.values fields)
  hasChunked := (H1Handler.transferEncoding.values fields).any (· == str "chunked")
  hasLength := !(H1Handler.contentLength.values fields).isEmpty
  length := (H1Handler.contentLength.values fields).head?.bind offTParse
  hasHost := !(H1Handler.host.values fields).isEmpty
  connectionUpgrade :=
    (H1Handler.connection.values fields).any (memcasestrn · (str "upgrade"))
  upgradeWebsocket := (H1Handler.upgrade.values fields).any (strcasestrEq · (str "websocket"))
  hasWebsocketKey := (H1Handler.websocketKey.values fields).any (·.length == 24)
  websocketVersionOk := (H1Handler.websocketVersion.values fields).any (· == str "13")

/-- No Content-Length line, or one with a number that fits. -/
def LengthAccepted (skcf : SocketConf) (values : List Bytes) : Prop :=
  values = [] ∨ ∃ v n, values = [v] ∧ offTParse v = some n ∧ (n : ℤ) ≤ offT skcf.maxBodySize

def HostAccepted (values : List Bytes) : Prop :=
  values = [] ∨ ∃ v host, values = [v] ∧ validateHost v = .ok host

structure FieldsAccepted (skcf : SocketConf) (fields : List HttpField) : Prop where
  chunkedOnce : (H1Handler.transferEncoding.values fields).count (str "chunked") ≤ 1
  length : LengthAccepted skcf (H1Handler.contentLength.values fields)
  host : HostAccepted (H1Handler.host.values fields)

theorem fieldsAccepted_of_append {skcf : SocketConf} {seen more : List HttpField}
    (h : FieldsAccepted skcf (seen ++ more)) : FieldsAccepted skcf seen := by
  obtain ⟨hchunked, hlength, hhost⟩ := h
  rw [H1Handler.values, fieldValues_append] at hchunked hlength hhost
  refine ⟨?_, ?_, ?_⟩
  · rw [count_append] at hchunked
    exact (Nat.le_add_right _ _).trans hchunked
  · rcases hlength with hnil | ⟨v, n, hv, hn⟩
    · exact .inl (append_eq_nil_iff.mp hnil).1
    rcases append_eq_singleton_iff.mp hv with ⟨h, -⟩ | ⟨h, -⟩
    · exact .inl h
    · exact .inr ⟨v, n, h, hn⟩
  · rcases hhost with hnil | ⟨v, host, hv, hok⟩
    · exact .inl (append_eq_nil_iff.mp hnil).1
    rcases append_eq_singleton_iff.mp hv with ⟨h, -⟩ | ⟨h, -⟩
    · exact .inl h
    · exact .inr ⟨v, host, h, hok⟩

def RequestView.add (w : RequestView) (h : Option H1Handler) (v : Bytes) : RequestView :=
  match h with
  | some .transferEncoding =>
    { w with
      encoding := if v = str "chunked" then .chunked else .unsupported,
      hasChunked := w.hasChunked || v == str "chunked" }
  | some .contentLength =>
    { w with hasLength := true, length := if w.hasLength then w.length else offTParse v }
  | some .host => { w with hasHost := true }
  | some .connection =>
    { w with connectionUpgrade := w.connectionUpgrade || memcasestrn v (str "upgrade") }
  | some .upgrade =>
    { w with upgradeWebsocket := w.upgradeWebsocket || strcasestrEq v (str "websocket") }
  | some .websocketKey => { w with hasWebsocketKey := w.hasWebsocketKey || v.length == 24 }
  | some .websocketVersion =>
    { w with websocketVersionOk := w.websocketVersionOk || v == str "13" }
  | _ => w

def RequestView.Accepts (skcf : SocketConf) (w : RequestView) (h : Option H1Handler)
    (v : Bytes) : Prop :=
  match h with
  | some .transferEncoding => v = str "chunked" → w.hasChunked = false
  | some .contentLength => w.hasLength = false ∧
      ∃ n, offTParse v = some n ∧ (n : ℤ) ≤ offT skcf.maxBodySize
  | some .host => w.hasHost = false ∧ ∃ host, validateHost v = .ok host
  | _ => True

section Step

variable {skcf : SocketConf} {rp : RequestParse} {seen : List HttpField} {f : HttpField}

/-- The handlers do to the view what the field does. -/
theorem view_of_handler {h : H1Handler} {r r' : H1Request} {f' : HttpField}
    (hok : h1pHandler skcf h r f = .ok (r', f')) : r'.view = r.view.add (some h) f.value := by
  cases h with
  | connection =>
    cases hok
    rw [h1pConnection]
    split_ifs <;> simp_all [H1Request.view, RequestView.add]
  | upgrade | websocketKey | websocketVersion =>
    cases hok
    split_ifs <;> simp_all [H1Request.view, RequestView.add]
  | expect =>
    cases hok
    split_ifs <;> rfl
  | transferEncoding =>
    simp only [h1pHandler, h1pTransferEncoding] at hok
    split_ifs at hok <;> cases hok <;> simp_all [H1Request.view, RequestView.add]
  | host =>
    simp only [h1pHandler, requestHost] at hok
    split_ifs at hok
    cases hv : validateHost f.value with
    | error status => rw [hv] at hok; cases hok
    | ok host => rw [hv] at hok; cases hok; rfl
  | contentLength =>
    simp only [h1pHandler, requestContentLength] at hok
    split_ifs at hok with hsome
    cases hn : offTParse f.value with
    | none => rw [hn] at hok; cases hok
    | some n => ?_
    rw [hn] at hok
    dsimp only at hok
    split_ifs at hok
    cases hok
    simp_all [H1Request.view, RequestView.add]
  | cookie | referer | userAgent | contentType | authorization => cases hok; rfl

theorem handler_cases (skcf : SocketConf) (h : H1Handler) (r : H1Request) (f : HttpField) :
    (r.view.Accepts skcf (some h) f.value ∧ ∃ r' f', h1pHandler skcf h r f = .ok (r', f')) ∨
    (¬ r.view.Accepts skcf (some h) f.value ∧ ∃ status, h1pHandler skcf h r f = .error status) := by
  cases h with
  | transferEncoding =>
    simp only [RequestView.Accepts, h1pHandler, h1pTransferEncoding, H1Request.view]
    by_cases hv : f.value = str "chunked"
    · cases hc : r.chunkedField with
      | none => exact .inl ⟨by simp, _, _, by rw [if_pos hv]; rfl⟩
      | some c => exact .inr ⟨by simp [hv], _, by rw [if_pos hv]; rfl⟩
    · exact .inl ⟨fun h => absurd h hv, _, _, by rw [if_neg hv]⟩
  | host =>
    simp only [RequestView.Accepts, h1pHandler, requestHost, H1Request.view]
    cases hc : r.host with
    | some c => exact .inr ⟨by simp, _, rfl⟩
    | none => ?_
    cases hv : validateHost f.value with
    | error status => exact .inr ⟨by simp, _, rfl⟩
    | ok host => exact .inl ⟨⟨rfl, host, rfl⟩, _, _, rfl⟩
  | contentLength =>
    simp only [RequestView.Accepts, h1pHandler, requestContentLength, H1Request.view]
    cases hc : r.contentLength with
    | some c => exact .inr ⟨by simp, _, rfl⟩
    | none => ?_
    cases hn : offTParse f.value with
    | none => exact .inr ⟨by simp, _, rfl⟩
    | some n => ?_
    by_cases hfit : (n : ℤ) > offT skcf.maxBodySize
    · refine .inr ⟨?_, _, if_pos hfit⟩
      rintro ⟨-, m, hm, hle⟩
      cases hm
      exact absurd hle (not_le.mpr hfit)
    · exact .inl ⟨⟨rfl, n, rfl, not_lt.mp hfit⟩, _, _, if_neg hfit⟩
  | connection => exact .inl ⟨trivial, _, _, rfl⟩
  | upgrade => exact .inl ⟨trivial, _, _, rfl⟩
  | websocketKey => exact .inl ⟨trivial, _, _, rfl⟩
  | websocketVersion => exact .inl ⟨trivial, _, _, rfl⟩
  | expect => exact .inl ⟨trivial, _, _, rfl⟩
  | cookie => exact .inl ⟨trivial, _, _, rfl⟩
  | referer => exact .inl ⟨trivial, _, _, rfl⟩
  | userAgent => exact .inl ⟨trivial, _, _, rfl⟩
  | contentType => exact .inl ⟨trivial, _, _, rfl⟩
  | authorization => exact .inl ⟨trivial, _, _, rfl⟩

theorem fieldsView_snoc (hf : f.WellHashed) :
    fieldsView rp (seen ++ [f]) = (fieldsView rp seen).add (lookupField h1pFields f) f.value := by
  have hv : ∀ h : H1Handler, h.values (seen ++ [f]) = h.values seen
      ++ if lookupField h1pFields f = some h then [f.value] else [] := fun h =>
    values_snoc h seen hf
  cases hl : lookupField h1pFields f with
  | none => simp [fieldsView, RequestView.add, hv, hl]
  | some h => ?_
  cases h with
  | transferEncoding => simp [fieldsView, RequestView.add, hv, hl, lastEncoding]
  | contentLength =>
    cases hc : H1Handler.contentLength.values seen <;>
      simp [fieldsView, RequestView.add, hv, hl, hc]
  | _ => simp [fieldsView, RequestView.add, hv, hl]

theorem lengthAccepted_snoc (values : List Bytes) (v : Bytes) :
    LengthAccepted skcf (values ++ [v]) ↔ values = [] ∧
      ∃ n, offTParse v = some n ∧ (n : ℤ) ≤ offT skcf.maxBodySize := by
  constructor
  · rintro (hnil | ⟨w, n, hw, hn⟩)
    · simp at hnil
    obtain ⟨rfl, hlast⟩ := append_inj' (hw.trans (nil_append [w]).symm) rfl
    cases hlast
    exact ⟨rfl, n, hn⟩
  · rintro ⟨rfl, n, hn⟩
    exact .inr ⟨v, n, rfl, hn⟩

theorem hostAccepted_snoc (values : List Bytes) (v : Bytes) :
    HostAccepted (values ++ [v]) ↔ values = [] ∧ ∃ host, validateHost v = .ok host := by
  constructor
  · rintro (hnil | ⟨w, host, hw, hok⟩)
    · simp at hnil
    obtain ⟨rfl, hlast⟩ := append_inj' (hw.trans (nil_append [w]).symm) rfl
    cases hlast
    exact ⟨rfl, host, hok⟩
  · rintro ⟨rfl, host, hok⟩
    exact .inr ⟨v, host, rfl, hok⟩

theorem fieldsAccepted_snoc (rp : RequestParse) (hf : f.WellHashed)
    (hacc : FieldsAccepted skcf seen) : FieldsAccepted skcf (seen ++ [f]) ↔
      (fieldsView rp seen).Accepts skcf (lookupField h1pFields f) f.value := by
  have hkeep : ∀ h : H1Handler, lookupField h1pFields f ≠ some h →
      h.values (seen ++ [f]) = h.values seen := fun h hne => by
    rw [values_snoc h seen hf, if_neg hne, append_nil]
  have hadd : ∀ h : H1Handler, lookupField h1pFields f = some h →
      h.values (seen ++ [f]) = h.values seen ++ [f.value] := fun h heq => by
    rw [values_snoc h seen hf, if_pos heq]
  have hother : lookupField h1pFields f ≠ some .transferEncoding →
      lookupField h1pFields f ≠ some .contentLength → lookupField h1pFields f ≠ some .host →
      FieldsAccepted skcf (seen ++ [f]) := fun hte hcl hhost =>
    ⟨hkeep _ hte ▸ hacc.chunkedOnce, hkeep _ hcl ▸ hacc.length, hkeep _ hhost ▸ hacc.host⟩
  cases hl : lookupField h1pFields f with
  | none => exact iff_of_true (hother (by simp [hl]) (by simp [hl]) (by simp [hl])) trivial
  | some h => ?_
  cases h with
  | transferEncoding =>
    have hte := hadd .transferEncoding hl
    have hcount : (fieldsView rp seen).hasChunked = false ↔
        (H1Handler.transferEncoding.values seen).count (str "chunked") = 0 := by
      rw [count_eq_zero]
      simp only [fieldsView, any_eq_false, beq_iff_eq]
      exact ⟨fun h hmem => h _ hmem rfl, fun h v hmem heq => h (heq ▸ hmem)⟩
    constructor
    · intro hacc' hv
      have honce := hacc'.chunkedOnce
      rw [hte, count_append, hv, count_singleton_self] at honce
      exact hcount.mpr (by omega)
    · intro haccepts
      refine ⟨?_, hkeep .contentLength (by simp [hl]) ▸ hacc.length,
        hkeep .host (by simp [hl]) ▸ hacc.host⟩
      rw [hte, count_append]
      by_cases hv : f.value = str "chunked"
      · rw [hcount.mp (haccepts hv), hv, count_singleton_self]
      rw [count_singleton, if_neg (by simpa using hv)]
      exact hacc.chunkedOnce
  | contentLength =>
    have hempty : (fieldsView rp seen).hasLength = false ↔
        H1Handler.contentLength.values seen = [] := by
      simp [fieldsView]
    rw [RequestView.Accepts, hempty, ← lengthAccepted_snoc, ← hadd _ hl]
    refine ⟨fun h => h.length, fun h => ⟨?_, h, ?_⟩⟩
    · exact hkeep .transferEncoding (by simp [hl]) ▸ hacc.chunkedOnce
    · exact hkeep .host (by simp [hl]) ▸ hacc.host
  | host =>
    have hempty : (fieldsView rp seen).hasHost = false ↔ H1Handler.host.values seen = [] := by
      simp [fieldsView]
    rw [RequestView.Accepts, hempty, ← hostAccepted_snoc, ← hadd _ hl]
    refine ⟨fun h => h.host, fun h => ⟨?_, ?_, h⟩⟩
    · exact hkeep .transferEncoding (by simp [hl]) ▸ hacc.chunkedOnce
    · exact hkeep .contentLength (by simp [hl]) ▸ hacc.length
  | _ => exact iff_of_true (hother (by simp [hl]) (by simp [hl]) (by simp [hl])) trivial

end Step

/-- **The fields of a header**: they are processed to the end exactly if they
are accepted, and then leave what their values say. -/
theorem fieldsProcess_cases (skcf : SocketConf) (r : H1Request)
    (hfresh : r.view = fieldsView r.parser []) {fields : List HttpField}
    (hfields : ∀ f ∈ fields, f.WellHashed) :
    (FieldsAccepted skcf fields ∧ ∃ r' fields', fieldsProcess h1pFields (h1pHandler skcf) r fields
        = .ok (r', fields') ∧ r'.view = fieldsView r.parser fields) ∨
      (¬ FieldsAccepted skcf fields ∧ ∃ status,
        fieldsProcess h1pFields (h1pHandler skcf) r fields = .error status) := by
  refine fieldsProcess_rule _ _ (fun (r' : H1Request) seen => r'.view = fieldsView r.parser seen)
    (FieldsAccepted skcf) fieldsAccepted_of_append ?_ hfresh ⟨by simp [H1Handler.values,
      fieldValues], .inl rfl, .inl rfl⟩
  intro r' seen f hview hacc hmem
  have hf := hfields f hmem
  rw [fieldsAccepted_snoc r.parser hf hacc, fieldsView_snoc hf, ← hview, fieldProcess]
  cases hl : lookupField h1pFields f with
  | none => exact .inl ⟨trivial, r', f, rfl, rfl⟩
  | some h => ?_
  rcases handler_cases skcf h r' f with ⟨haccepts, r'', f', hok⟩ | ⟨hnot, status, herr⟩
  · exact .inl ⟨haccepts, r'', f', hok, view_of_handler hok⟩
  · exact .inr ⟨hnot, status, herr⟩

/-! ### The outcome of a header -/

def RequestView.HandshakeOk (w : RequestView) : Prop :=
  w.connectionUpgrade = true ∧ w.upgradeWebsocket = true →
    w.parser.method = str "GET" ∧ w.parser.version.getLast? = some 0x31 ∧
      w.hasWebsocketKey = true ∧ w.websocketVersionOk = true

theorem websocketCheck_cases (r : H1Request) :
    (r.view.HandshakeOk ∧ ∃ r', websocketCheck r = .ok r' ∧ r'.view = r.view) ∨
      (¬ r.view.HandshakeOk ∧ ∃ status, websocketCheck r = .error status) := by
  rw [websocketCheck]
  by_cases hup : r.connectionUpgrade ∧ r.upgradeWebsocket
  · have hiff : r.view.HandshakeOk ↔ r.parser.method = str "GET" ∧
        r.parser.version.getLast? = some 0x31 ∧ r.websocketKey.isSome = true ∧
        r.websocketVersionOk = true := ⟨fun h => h hup, fun h _ => h⟩
    rw [if_pos hup, hiff]
    by_cases hmethod : r.parser.method = str "GET"
    swap
    · exact .inr ⟨fun h => hmethod h.1, _, if_pos hmethod⟩
    rw [if_neg (not_not.mpr hmethod)]
    by_cases hversion : r.parser.version.getLast? = some 0x31
    swap
    · exact .inr ⟨fun h => hversion h.2.1, _, if_pos hversion⟩
    rw [if_neg (not_not.mpr hversion)]
    cases hkey : r.websocketKey with
    | none => exact .inr ⟨fun h => Bool.noConfusion h.2.2.1, _, rfl⟩
    | some k => ?_
    rw [if_neg (by simp)]
    cases hok : r.websocketVersionOk with
    | false => exact .inr ⟨fun h => Bool.noConfusion h.2.2.2, _, rfl⟩
    | true => exact .inl ⟨⟨hmethod, hversion, rfl, rfl⟩, _, if_neg (by simp), by
        simp [H1Request.view, hkey, hok]⟩
  rw [if_neg hup]
  exact .inl ⟨fun h => absurd h hup, r, rfl, rfl⟩

/-- The decision of `bodyFraming` on the view. -/
def RequestView.framing (skcf : SocketConf) (w : RequestView) : Except HttpStatus Framing :=
  match w.encoding with
  | .chunked =>
    if ¬ skcf.chunkedTransform then .error .lengthRequired
    else if w.hasLength ∨ ¬ w.parser.isHttp11 then .error .badRequest
    else .ok .chunked
  | .unsupported => .error .notImplemented
  | .none => .ok (match w.length with | none => .none | some n => .length n)

theorem bodyFraming_eq (skcf : SocketConf) (r : H1Request) :
    bodyFraming skcf r = r.view.framing skcf := rfl

/-- What it takes for a header to be accepted, apart from the framing. -/
structure HeaderAccepted (skcf : SocketConf) (connTls : Bool) (rp : RequestParse)
    (fields : List HttpField) : Prop where
  accepted : FieldsAccepted skcf fields
  handshake : (fieldsView rp fields).HandshakeOk
  tls : connTls = true ∨ skcf.tls = false

/-- **The outcome of a header** from the values of its fields. -/
theorem h1pRequestHeader_cases (skcf : SocketConf) (connTls : Bool) (rp : RequestParse)
    (hfields : ∀ f ∈ rp.fields, f.WellHashed) :
    (∃ framing r fields, h1pRequestHeader skcf connTls rp = .accepted framing r fields ∧
      r.view = fieldsView rp rp.fields ∧ HeaderAccepted skcf connTls rp rp.fields ∧
      (fieldsView rp rp.fields).framing skcf = .ok framing) ∨
    (∃ status, h1pRequestHeader skcf connTls rp = .refused status false ∧
      (HeaderAccepted skcf connTls rp rp.fields →
        ∃ status, (fieldsView rp rp.fields).framing skcf = .error status)) := by
  rw [h1pRequestHeader, h1pHeaderProcess]
  rcases fieldsProcess_cases skcf { parser := rp, keepalive := rp.isHttp11 } rfl hfields with
    ⟨hacc, r, fields, hr, hview⟩ | ⟨hnot, status, hr⟩
  · rw [hr]
    dsimp only
    rcases websocketCheck_cases r with ⟨hok, r', hr', hview'⟩ | ⟨hnot, status, hr'⟩
    · rw [hr']
      dsimp only
      rw [hview] at hok hview'
      by_cases htls : ¬ connTls ∧ skcf.tls
      · rw [if_pos htls]
        refine .inr ⟨_, rfl, fun haccepted => ?_⟩
        rcases haccepted.tls with h | h <;> simp [h] at htls
      have htls' : connTls = true ∨ skcf.tls = false := by
        rcases Bool.eq_false_or_eq_true connTls with h | h
        · exact .inl h
        · exact .inr (by simpa [h] using htls)
      rw [if_neg htls, bodyFraming_eq, hview']
      cases hframing : (fieldsView rp rp.fields).framing skcf with
      | error status => exact .inr ⟨status, rfl, fun _ => ⟨status, rfl⟩⟩
      | ok framing => exact .inl ⟨framing, r', fields, rfl, hview', ⟨hacc, hok, htls'⟩, rfl⟩
    rw [hr']
    rw [hview] at hnot
    exact .inr ⟨status, rfl, fun haccepted => absurd haccepted.handshake hnot⟩
  rw [hr]
  exact .inr ⟨status, rfl, fun haccepted => absurd haccepted.accepted hnot⟩

/-! ### Decimal numbers -/

/-- The number that decimal digits denote, after `val`. -/
def decimalValue (val : ℕ) (digits : Bytes) : ℕ :=
  digits.foldl (fun n ch => n * 10 + (ch - 0x30).toNat) val

theorem le_decimalValue (val : ℕ) (digits : Bytes) : val ≤ decimalValue val digits := by
  induction digits generalizing val with
  | nil => exact le_rfl
  | cons ch digits ih => ?_
  have := ih (val * 10 + (ch - 0x30).toNat)
  rw [decimalValue, foldl_cons]
  rw [decimalValue] at this
  omega

theorem digit_le_nine_iff (ch : UInt8) : (ch - 0x30).toNat ≤ 9 ↔ isDigit ch = true := by
  have key : ∀ ch : UInt8, (ch - 0x30).toNat ≤ 9 ↔ isDigit ch = true := by decide +kernel
  exact key ch

theorem offTLoop_eq_some_iff {val : ℕ} (hval : val ≤ offTMax) (p : Bytes) (n : ℕ) :
    offTLoop val p = some n ↔
      (∀ c ∈ p, isDigit c = true) ∧ decimalValue val p = n ∧ n ≤ offTMax := by
  induction p generalizing val with
  | nil =>
    rw [offTLoop, Option.some.injEq]
    constructor
    · rintro rfl
      exact ⟨by simp, rfl, hval⟩
    · exact fun h => h.2.1
  | cons ch p ih => ?_
  have hcons : decimalValue val (ch :: p)
      = decimalValue (val * 10 + (ch - 0x30).toNat) p := rfl
  rw [offTLoop, hcons, forall_mem_cons, ← digit_le_nine_iff]
  by_cases hdigit : (ch - 0x30).toNat ≤ 9
  swap
  · rw [if_pos (not_le.mp hdigit)]
    simp [hdigit]
  rw [if_neg (not_lt.mpr hdigit)]
  -- the test against the cutoff is the test that the next value fits
  have hcut : (val ≥ offTMax / 10 ∧ (val > offTMax / 10 ∨ (ch - 0x30).toNat > offTMax % 10)) ↔
      ¬ val * 10 + (ch - 0x30).toNat ≤ offTMax := by
    have hdiv := Nat.div_add_mod offTMax 10
    omega
  by_cases hfit : val * 10 + (ch - 0x30).toNat ≤ offTMax
  · rw [if_neg (fun h => (hcut.mp h) hfit), ih hfit]
    simp [hdigit]
  rw [if_pos (hcut.mpr hfit)]
  have hle := le_decimalValue (val * 10 + (ch - 0x30).toNat) p
  simp only [reduceCtorEq, false_iff]
  rintro ⟨-, rfl, hmax⟩
  exact hfit (hle.trans hmax)

/-- `nxt_off_t_parse` reads exactly the decimal numbers that fit. -/
theorem offTParse_eq_some_iff (v : Bytes) (n : ℕ) :
    offTParse v = some n ↔ v ≠ [] ∧ (∀ c ∈ v, isDigit c = true) ∧ decimalValue 0 v = n ∧
      n ≤ offTMax := by
  rw [offTParse]
  by_cases hv : v = []
  · simp [hv]
  rw [if_neg hv, offTLoop_eq_some_iff (Nat.zero_le _)]
  simp [hv]

/-- `nxt_sprintf` with `%O`: the decimal digits of a number. -/
def decimal (n : ℕ) : Bytes :=
  if n = 0 then [0x30] else (Nat.digits 10 n).reverse.map fun d => 0x30 + UInt8.ofNat d

theorem decimal_ne_nil (n : ℕ) : decimal n ≠ [] := by
  rw [decimal]
  split_ifs with h
  · simp
  · simpa [Nat.digits_eq_nil_iff_eq_zero] using h

theorem digitByte {d : ℕ} (h : d < 10) :
    isDigit (0x30 + UInt8.ofNat d) = true ∧ ((0x30 + UInt8.ofNat d) - 0x30).toNat = d := by
  interval_cases d <;> decide

variable {n : ℕ}

theorem isDigit_of_mem_decimal {c : UInt8} (h : c ∈ decimal n) : isDigit c = true := by
  rw [decimal] at h
  split_ifs at h with hn
  · rw [mem_singleton.mp h]
    rfl
  obtain ⟨d, hd, rfl⟩ := mem_map.mp h
  exact (digitByte (Nat.digits_lt_base (by decide) (mem_reverse.mp hd))).1

theorem length_decimal_le (h : n < 2 ^ 64) : (decimal n).length ≤ 20 := by
  rw [decimal]
  split_ifs with hn
  · simp
  rw [length_map, length_reverse, Nat.digits_length_le_iff (by decide)]
  omega

theorem decimalValue_decimal (n : ℕ) : decimalValue 0 (decimal n) = n := by
  rw [decimal]
  split_ifs with hn
  · rw [hn]
    rfl
  have hval : ∀ l : List ℕ, (∀ d ∈ l, d < 10) →
      decimalValue 0 (l.reverse.map fun d => 0x30 + UInt8.ofNat d) = Nat.ofDigits 10 l := by
    intro l
    induction l with
    | nil => intro _; rfl
    | cons d l ih => ?_
    intro hl
    have hd := (digitByte (hl d mem_cons_self)).2
    have hrest := ih fun e he => hl e (mem_cons_of_mem _ he)
    rw [decimalValue] at hrest ⊢
    rw [reverse_cons, map_append, foldl_append, hrest, map_singleton,
      foldl_cons, foldl_nil, hd, Nat.ofDigits_cons]
    omega
  rw [hval _ fun d hd => Nat.digits_lt_base (by decide) hd, Nat.ofDigits_digits]

/-! ### The unambiguous framing -/

def trimBlanks (v : Bytes) : Bytes :=
  ((v.dropWhile isBlank).reverse.dropWhile isBlank).reverse

/-- The codings that a Transfer-Encoding line lists, in lower case. -/
def codings (v : Bytes) : List Bytes :=
  ((v.splitOn 0x2C).map fun c => (trimBlanks c).map lowcase).filter (· ≠ [])

/-- **The framing that is safe to use**: chunked if that is the one coding of
all Transfer-Encoding lines together, without a Content-Length and in
HTTP/1.1; a length if there is no Transfer-Encoding line and one
Content-Length line with a decimal number that fits; no body if there is
neither.  Anything else has to be refused, and the connection not used again. -/
def Unambiguous (skcf : SocketConf) (rp : RequestParse) : HeaderOutcome → Prop
  | .accepted .chunked _ _ =>
    (H1Handler.transferEncoding.values rp.fields).flatMap codings = [str "chunked"] ∧
      H1Handler.contentLength.values rp.fields = [] ∧ rp.isHttp11 = true
  | .accepted (.length n) _ _ =>
    H1Handler.transferEncoding.values rp.fields = [] ∧
      ∃ v, H1Handler.contentLength.values rp.fields = [v] ∧
        v ≠ [] ∧ (∀ c ∈ v, isDigit c = true) ∧ decimalValue 0 v = n ∧ n ≤ offTMax ∧
        (n : ℤ) ≤ offT skcf.maxBodySize
  | .accepted .none _ _ =>
    H1Handler.transferEncoding.values rp.fields = [] ∧
      H1Handler.contentLength.values rp.fields = []
  | .refused _ keepalive => keepalive = false

/-- The headers whose framing the server gets wrong: the last
Transfer-Encoding line is the only `chunked`, but a line before it lists a
coding, and nothing else in the header is refused. -/
def MixedCodings (skcf : SocketConf) (connTls : Bool) (rp : RequestParse) : Prop :=
  ∃ before, H1Handler.transferEncoding.values rp.fields = before ++ [str "chunked"] ∧
    str "chunked" ∉ before ∧ before.flatMap codings ≠ [] ∧
    H1Handler.contentLength.values rp.fields = [] ∧
    HostAccepted (H1Handler.host.values rp.fields) ∧
    (fieldsView rp rp.fields).HandshakeOk ∧ (connTls = true ∨ skcf.tls = false) ∧
    skcf.chunkedTransform = true ∧ rp.isHttp11 = true

variable {values : List Bytes}

theorem lastEncoding_eq_chunked (h : lastEncoding values = .chunked) :
    ∃ before, values = before ++ [str "chunked"] := by
  rcases eq_nil_or_concat values with rfl | ⟨before, v, rfl⟩
  · cases h
  simp only [lastEncoding, concat_eq_append, getLast?_append, getLast?_singleton,
    Option.some_or] at h
  split_ifs at h with hv
  exact ⟨before, by rw [hv, concat_eq_append]⟩

theorem lastEncoding_eq_none (h : lastEncoding values = .none) :
    values = [] := by
  rcases eq_nil_or_concat values with rfl | ⟨before, v, rfl⟩
  · rfl
  simp only [lastEncoding, concat_eq_append, getLast?_append, getLast?_singleton,
    Option.some_or] at h
  split_ifs at h

/-- The codings of the lines before a last `chunked`. -/
theorem flatMap_codings_eq_iff (before : List Bytes) :
    (before ++ [str "chunked"]).flatMap codings = [str "chunked"] ↔
      before.flatMap codings = [] := by
  have hlast : codings (str "chunked") = [str "chunked"] := by decide
  rw [flatMap_append, flatMap_singleton, hlast]
  exact append_left_eq_self

theorem framing_chunked_iff (skcf : SocketConf) (w : RequestView) :
    w.framing skcf = .ok .chunked ↔ w.encoding = .chunked ∧ skcf.chunkedTransform = true ∧
      w.hasLength = false ∧ w.parser.isHttp11 = true := by
  rw [RequestView.framing]
  cases hte : w.encoding with
  | none => cases w.length <;> simp
  | unsupported => simp
  | chunked =>
    cases skcf.chunkedTransform <;> cases w.hasLength <;> cases w.parser.isHttp11 <;> simp

variable {framing : Framing}

theorem framing_of_ne_chunked {skcf : SocketConf} {w : RequestView}
    (h : w.framing skcf = .ok framing) (hne : framing ≠ .chunked) :
    w.encoding = .none ∧ framing = match w.length with | none => .none | some n => .length n := by
  rw [RequestView.framing] at h
  cases hte : w.encoding with
  | none =>
    simp only [hte, Except.ok.injEq] at h
    exact ⟨rfl, h.symm⟩
  | unsupported =>
    simp only [hte] at h
    cases h
  | chunked => ?_
  simp only [hte] at h
  split_ifs at h
  cases h
  exact absurd rfl hne

variable {connTls : Bool}

theorem chunked_unambiguous_iff {skcf : SocketConf} {rp : RequestParse}
    (hacc : HeaderAccepted skcf connTls rp rp.fields)
    (hframing : (fieldsView rp rp.fields).framing skcf = .ok .chunked) (r : H1Request)
    (fields : List HttpField) :
    Unambiguous skcf rp (.accepted .chunked r fields) ↔ ¬ MixedCodings skcf connTls rp := by
  obtain ⟨hte, htransform, hlength, hversion⟩ := (framing_chunked_iff skcf _).mp hframing
  obtain ⟨before, hbefore⟩ := lastEncoding_eq_chunked hte
  have hcl : H1Handler.contentLength.values rp.fields = [] := by
    simpa [fieldsView] using hlength
  have honce : str "chunked" ∉ before := by
    have := hacc.accepted.chunkedOnce
    rw [hbefore, count_append, count_singleton_self] at this
    rw [← count_eq_zero]
    omega
  rw [Unambiguous, hbefore, flatMap_codings_eq_iff]
  constructor
  · rintro ⟨hnil, -⟩ ⟨before', hte', -, hcodings, -⟩
    obtain ⟨rfl, -⟩ := append_inj' (hbefore.symm.trans hte') rfl
    exact hcodings hnil
  · intro hmixed
    refine ⟨by_contra fun hcodings => hmixed ?_, hcl, hversion⟩
    exact ⟨before, hbefore, honce, hcodings, hcl, hacc.accepted.host, hacc.handshake, hacc.tls,
      htransform, hversion⟩

/-- An accepted header with a length, or without a body. -/
theorem length_unambiguous {skcf : SocketConf} {rp : RequestParse}
    (hacc : HeaderAccepted skcf connTls rp rp.fields)
    (hframing : (fieldsView rp rp.fields).framing skcf = .ok framing) (hne : framing ≠ .chunked)
    (r : H1Request) (fields : List HttpField) : H1Handler.transferEncoding.values rp.fields = [] ∧
      Unambiguous skcf rp (.accepted framing r fields) := by
  obtain ⟨hte, rfl⟩ := framing_of_ne_chunked hframing hne
  have hte := lastEncoding_eq_none hte
  refine ⟨hte, ?_⟩
  rcases hacc.accepted.length with hcl | ⟨v, n, hcl, hn, hfit⟩
  · have hlen : (fieldsView rp rp.fields).length = none := by simp [fieldsView, hcl]
    rw [hlen]
    exact ⟨hte, hcl⟩
  have hlen : (fieldsView rp rp.fields).length = some n := by simp [fieldsView, hcl, hn]
  obtain ⟨hv, hdigits, hvalue, hmax⟩ := (offTParse_eq_some_iff v n).mp hn
  rw [hlen]
  exact ⟨hte, v, hcl, hv, hdigits, hvalue, hmax, hfit⟩

/-- Mixed codings get through to the body as chunked. -/
theorem framing_of_mixedCodings {skcf : SocketConf} {rp : RequestParse}
    (h : MixedCodings skcf connTls rp) : HeaderAccepted skcf connTls rp rp.fields ∧
      (fieldsView rp rp.fields).framing skcf = .ok .chunked := by
  obtain ⟨before, hte, hbefore, -, hcl, hhost, hshake, htls, htransform, hversion⟩ := h
  refine ⟨⟨⟨?_, .inl hcl, hhost⟩, hshake, htls⟩, (framing_chunked_iff skcf _).mpr ?_⟩
  · rw [hte, count_append, count_singleton_self, count_eq_zero.mpr hbefore]
  · refine ⟨?_, htransform, ?_, hversion⟩
    · simp [fieldsView, hte, lastEncoding]
    · simp [fieldsView, hcl]

/-- **The framing the server uses is the unambiguous one**, for every list of
header field lines, except for the mixed codings. -/
theorem h1pRequestHeader_unambiguous_iff (skcf : SocketConf) (connTls : Bool) (rp : RequestParse)
    (lines : List (Bytes × Bytes)) :
    let rp := { rp with fields := lines.map fun l => HttpField.ofLine l.1 l.2 }
    Unambiguous skcf rp (h1pRequestHeader skcf connTls rp) ↔ ¬ MixedCodings skcf connTls rp := by
  intro rp
  have hfields : ∀ f ∈ rp.fields, f.WellHashed := by
    intro f hf
    obtain ⟨l, -, rfl⟩ := mem_map.mp hf
    exact HttpField.wellHashed_ofLine _ _
  rcases h1pRequestHeader_cases skcf connTls rp hfields with
    ⟨framing, r, fields, hr, -, hacc, hframing⟩ | ⟨status, hr, hrefused⟩
  · rw [hr]
    by_cases hchunked : framing = .chunked
    · subst hchunked
      exact chunked_unambiguous_iff hacc hframing r fields
    obtain ⟨hte, hunambiguous⟩ := length_unambiguous hacc hframing hchunked r fields
    refine iff_of_true hunambiguous ?_
    rintro ⟨before, hte', -⟩
    rw [hte] at hte'
    simp at hte'
  rw [hr]
  refine iff_of_true rfl fun hmixed => ?_
  -- a header with mixed codings is not refused
  obtain ⟨hacc, hframing⟩ := framing_of_mixedCodings hmixed
  obtain ⟨status', herror⟩ := hrefused hacc
  rw [hframing] at herror
  cases herror

/-- `gzip` on one line and `chunked` on the next: the body is read as chunked,
though the two lines stand for the codings `gzip, chunked`. -/
theorem h1pRequestHeader_gzip_chunked :
    let rp : RequestParse :=
      { version := str "HTTP/1.1",
        fields := [HttpField.ofLine (str "Transfer-Encoding") (str "gzip"),
          HttpField.ofLine (str "Transfer-Encoding") (str "chunked")] }
    (∃ r fields, h1pRequestHeader { chunkedTransform := true } false rp
        = .accepted .chunked r fields) ∧
      ¬ Unambiguous { chunkedTransform := true } rp
        (h1pRequestHeader { chunkedTransform := true } false rp) := by
  intro rp
  have hmixed : MixedCodings { chunkedTransform := true } false rp :=
    ⟨[str "gzip"], by decide, by decide, by decide, by decide, .inl (by decide),
      fun h => absurd h.1 (by decide), .inr rfl, rfl, by decide⟩
  have hfields : ∀ f ∈ rp.fields, f.WellHashed := by
    intro f hf
    rcases mem_pair.mp hf with rfl | rfl <;> exact HttpField.wellHashed_ofLine _ _
  obtain ⟨hacc, hframing⟩ := framing_of_mixedCodings hmixed
  rcases h1pRequestHeader_cases _ _ rp hfields with
    ⟨framing, r, fields, hr, -, -, hframing'⟩ | ⟨status, hr, hrefused⟩
  · rw [hframing] at hframing'
    cases hframing'
    rw [hr]
    refine ⟨⟨r, fields, rfl⟩, ?_⟩
    rintro ⟨hcodings, -⟩
    exact absurd hcodings (by decide)
  · obtain ⟨status', herror⟩ := hrefused hacc
    rw [hframing] at herror
    cases herror

end FreeUnit
