/-
The request that the proxy sends to an upstream peer
(`nxt_h1p_peer_header_send`).

The head is written from the client's request: its method, its target or the
rewritten path, and those of its fields that are neither skipped nor
hop-by-hop.  A peer parses these bytes again.

* `h1pPeerRequestTarget`, `h1pPeerHeaderSend` — the head;
* `reachesPeer_iff` — when the peer gets the request.
-/
import FreeUnit.Connection
import FreeUnit.TargetLine
import FreeUnit.TargetReference

namespace FreeUnit

open List

/-! ### Escaping -/

def uriEscape : List UInt32 :=
  [0xFFFFFFFF, 0xD000002D, 0x50000000, 0xB8000001, 0xFFFFFFFF, 0xFFFFFFFF, 0xFFFFFFFF,
    0xFFFFFFFF]

/-- `nxt_uri_escape[ch >> 5] & (1U << (ch & 0x1f))` -/
def uriEscaped (ch : UInt8) : Bool :=
  (uriEscape.getD (ch >>> 5).toNat 0 &&& (1 <<< (ch &&& 0x1F).toUInt32)) != 0

/-- `hex[n]`, the table `"0123456789ABCDEF"`. -/
def hexUpper (n : UInt8) : UInt8 :=
  [0x30, 0x31, 0x32, 0x33, 0x34, 0x35, 0x36, 0x37, 0x38, 0x39, 0x41, 0x42, 0x43, 0x44, 0x45,
    0x46].getD n.toNat 0

def percentByte (ch : UInt8) : Bytes := [0x25, hexUpper (ch >>> 4), hexUpper (ch &&& 0xF)]

section Escape

-- the memory behind the string literal that `reserved` starts in
variable (beyond : ℕ → UInt8)

/-- `reserved[n]`, where `reserved` has started as `"?#\0"`. -/
def reservedByte : ℕ → UInt8
  | 0 => 0x3F
  | 1 => 0x23
  | 2 | 3 => 0
  | n + 4 => beyond n

/-- `nxt_encode_complex_uri`, with `reserved` advanced by `n`. -/
def encodeComplexUri : ℕ → Bytes → Bytes
  | _, [] => []
  | n, ch :: src =>
    if uriEscaped ch then
      if ch = reservedByte beyond n then ch :: encodeComplexUri (n + 1) src
      else if ch = reservedByte beyond (n + 1) then ch :: encodeComplexUri (n + 2) src
      else percentByte ch ++ encodeComplexUri n src
    else ch :: encodeComplexUri n src

end Escape

/-! ### The request -/

/-- A buffer of a request body: in memory, or a part of a file. -/
inductive RequestBuf where
  | mem (used : ℕ)
  | file (pos len : ℕ)
  deriving DecidableEq, Repr

def RequestBuf.size : RequestBuf → ℕ
  | .mem used => used
  | .file _ len => len

/-- `b->file_end`, which stays zero in a memory buffer. -/
def RequestBuf.fileEnd : RequestBuf → ℕ
  | .mem _ => 0
  | .file pos len => pos + len

/-- What the request to a peer is made from in `nxt_http_request_t`. -/
structure HttpRequest where
  method : Bytes
  target : Bytes
  path : Bytes
  args : Bytes
  quotedTarget : Bool
  uriChanged : Bool := false
  fields : List HttpField
  chunked : Bool
  contentLength : Option HttpField
  body : Option (List RequestBuf)
  deriving DecidableEq, Repr

def HttpRequest.ofHeader (rp : RequestParse) (framing : Framing) (h1 : H1Request)
    (fields : List HttpField) (body : Option (List RequestBuf)) : HttpRequest where
  method := rp.method
  target := rp.target
  path := rp.path
  args := rp.args
  quotedTarget := rp.flags.quotedTarget
  fields := fields
  chunked := framing = .chunked
  contentLength := h1.contentLength
  body := body

/-- `nxt_http_request_chunked_transform`; the flag it sets on the
Transfer-Encoding field has been set by the handler of the field. -/
def chunkedTransform (r : HttpRequest) (first : RequestBuf) : HttpRequest :=
  let f := HttpField.ofLine (str "Content-Length") (decimal (first.fileEnd % 2 ^ 64))
  { r with fields := r.fields ++ [f], contentLength := some f }

/-- `nxt_http_request_ready` up to the action; a chunked body is in one file. -/
def requestReady (r : HttpRequest) : Option HttpRequest :=
  if r.chunked then
    match r.body with
    | some (first :: _) => some (chunkedTransform r first)
    | _ => none
  else some r

/-- `nxt_http_rewrite` with the value of the template. -/
def httpRewrite (r : HttpRequest) (value : Bytes) : Option HttpRequest :=
  (httpParseComplexTarget false value).map fun t =>
    { r with path := t.path, uriChanged := true, quotedTarget := t.quoted }

/-- A request on its way from the reads of the connection to the proxy, with
the values of the rewrites its actions make. -/
def proxiedRequest (skcf : SocketConf) (connTls : Bool) (reads : List Bytes)
    (body : Option (List RequestBuf)) (rewrites : List Bytes) : Option HttpRequest :=
  match parseReads { rp := requestInit skcf } reads with
  | .stop (.done rp _) =>
    match h1pRequestHeader skcf connTls rp with
    | .accepted framing h1 fields =>
      (requestReady (.ofHeader rp framing h1 fields body)).bind fun r =>
        rewrites.foldlM httpRewrite r
    | .refused _ _ => none
  | _ => none

section Peer

variable (beyond : ℕ → UInt8)

/-- The path as `nxt_h1p_peer_request_target` writes it. -/
def peerPath (r : HttpRequest) : Bytes :=
  if r.quotedTarget then encodeComplexUri beyond 0 r.path else r.path

def h1pPeerRequestTarget (r : HttpRequest) : Bytes :=
  if ¬ r.uriChanged then r.target
  else if ¬ r.quotedTarget ∧ r.args = [] then r.path
  else peerPath beyond r ++ (if r.args ≠ [] then 0x3F :: r.args else [])

/-- `!field->hopbyhop && !field->skip` -/
def HttpField.forwarded (f : HttpField) : Bool := !f.hopbyhop && !f.skip

/-- The length that `nxt_h1p_peer_header_send` adds itself: the sum of the
buffers as an `nxt_off_t`, unless it is negative. -/
def peerContentLength (r : HttpRequest) : Option ℕ :=
  if r.chunked ∧ r.contentLength = none then
    let n := offT (((r.body.getD []).map RequestBuf.size).sum % 2 ^ 64)
    if 0 ≤ n then some n.toNat else none
  else none

/-- The head that `nxt_h1p_peer_header_send` writes. -/
def h1pPeerHeaderSend (r : HttpRequest) : Bytes :=
  r.method ++ str " " ++ h1pPeerRequestTarget beyond r ++ str " HTTP/1.1\r\n" ++
    str "Connection: close\r\n" ++ (r.fields.filter HttpField.forwarded).flatMap HttpField.line ++
    (match peerContentLength r with
      | some n => str "Content-Length: " ++ decimal n ++ str "\r\n"
      | none => []) ++ str "\r\n"

/-- The fields of the head: the proxy's own Connection, the forwarded fields
in their order, and possibly a length. -/
def peerFields (r : HttpRequest) : List (Bytes × Bytes) :=
  (str "Connection", str "close") :: (r.fields.filter HttpField.forwarded).map HttpField.pair ++
    (match peerContentLength r with
      | some n => [(str "Content-Length", decimal n)]
      | none => [])

/-- **The peer gets the request**: its parser reads the head to its end as one
request, with the method, the path, the arguments and the forwarded fields. -/
def ReachesPeer (skcf : SocketConf) (r : HttpRequest) : Prop :=
  ∃ rp, httpParseRequest .requestLine (requestInit skcf) (h1pPeerHeaderSend beyond r) =
      .done rp [] ∧ rp.method = r.method ∧ rp.path = r.path ∧ rp.args = r.args ∧
    rp.fields.map HttpField.pair = peerFields r

end Peer

/-! ### The head as lines -/

def peerFieldList (r : HttpRequest) : List HttpField :=
  .ofLine (str "Connection") (str "close") :: r.fields.filter HttpField.forwarded ++
    (match peerContentLength r with
      | some n => [.ofLine (str "Content-Length") (decimal n)]
      | none => [])

theorem map_pair_peerFieldList (r : HttpRequest) :
    (peerFieldList r).map HttpField.pair = peerFields r := by
  rw [peerFieldList, peerFields, map_append, map_cons]
  cases peerContentLength r <;> rfl

theorem valueFits_decimal {n : ℕ} (h : n < 2 ^ 64) : ValueFits (decimal n) := by
  have hdigit : ∀ c : UInt8, isDigit c = true → 0x21 ≤ c ∧ c ≠ 0x7F := by grind [isDigit]
  refine valueFits_of_visible (fun c hc => hdigit c (isDigit_of_mem_decimal hc)) ?_
  have := length_decimal_le h
  rw [httpMaxFieldValue]
  omega

theorem peerContentLength_lt {r : HttpRequest} {n : ℕ} (h : peerContentLength r = some n) :
    n < 2 ^ 64 := by
  rw [peerContentLength] at h
  split_ifs at h with hc
  dsimp only at h
  split_ifs at h with hn
  have hlt := Nat.mod_lt ((r.body.getD []).map RequestBuf.size).sum (show 0 < 2 ^ 64 by decide)
  rw [offT] at h hn
  have := Option.some.inj h
  split_ifs at this hn <;> omega

section Head

variable (beyond : ℕ → UInt8) (r : HttpRequest)

/-- The head is a request line and its field lines. -/
theorem h1pPeerHeaderSend_eq : h1pPeerHeaderSend beyond r =
      r.method ++ 0x20 :: (h1pPeerRequestTarget beyond r ++ versionText ++
        (fieldLines (peerFieldList r) ++ crlf ++ [])) := by
  have hspace : str " " = [0x20] := by decide
  have hversion : str " HTTP/1.1\r\n" = versionText := by decide
  have hconnection : str "Connection: close\r\n" =
      (HttpField.ofLine (str "Connection") (str "close")).line := by decide
  have hend : str "\r\n" = crlf := by decide
  have hlength : str "Content-Length: " = str "Content-Length" ++ str ": " := by decide
  rw [h1pPeerHeaderSend, peerFieldList, hspace, hversion, hconnection, hend, hlength]
  cases peerContentLength r with
  | none => simp [fieldLines]
  | some n => simp [fieldLines, HttpField.line, HttpField.ofLine]

variable {beyond r} {skcf : SocketConf}
  (hmethod : ∀ c ∈ r.method, isMethodChar c = true)
include hmethod

/-- **If the written target is read back, the peer gets the request.** -/
theorem reachesPeer_of_target {t : ComplexTarget}
    (hslash : (h1pPeerRequestTarget beyond r).head? = some 0x2F)
    (hfits : TargetFits (h1pPeerRequestTarget beyond r))
    (ht : httpParseComplexTarget false (h1pPeerRequestTarget beyond r) = some t)
    (hpath : t.path = r.path) (hargs : t.args.getD [] = r.args)
    (hfields : ∀ f ∈ r.fields, NameFits skcf.discardUnsafeFields f.name ∧ ValueFits f.value) :
    ReachesPeer beyond skcf r := by
  have hlist : ∀ f ∈ peerFieldList r,
      NameFits skcf.discardUnsafeFields f.name ∧ ValueFits f.value := by
    intro f hf
    rw [peerFieldList, cons_append, mem_cons, mem_append] at hf
    rcases hf with rfl | hf | hf
    · exact ⟨nameFits_of_isSafeName _ (by decide),
        valueFits_of_visible (by decide +kernel) (by decide)⟩
    · exact hfields f (mem_of_mem_filter hf)
    cases hn : peerContentLength r with
    | none => simp [hn] at hf
    | some n => ?_
    obtain rfl : f = .ofLine (str "Content-Length") (decimal n) := by simpa [hn] using hf
    exact ⟨nameFits_of_isSafeName _ (show isSafeName (str "Content-Length") = true by decide),
      valueFits_decimal (peerContentLength_lt hn)⟩
  obtain ⟨rp, hstart, hd, hf, hnone, hline, hparse⟩ :=
    httpParseRequest_write (d := skcf.discardUnsafeFields) (f := false) hmethod hslash hfits ht
      (fieldLines (peerFieldList r) ++ crlf ++ [])
  rw [← hd] at hlist
  simp only [RequestParse.lineParts, Prod.mk.injEq] at hline
  obtain ⟨hm, -, hp, ha⟩ := hline
  have hdone := hparse.trans (httpParseRequest_fieldLines [] _ hstart hf hlist)
  rw [← h1pPeerHeaderSend_eq] at hdone
  refine ⟨_, hdone, hm, hp.trans hpath, ha.trans hargs, ?_⟩
  · dsimp only
    rw [hnone, nil_append, map_map, ← map_pair_peerFieldList]
    rfl

/-- **If the peer gets the request, it has read the written target back**: the
target it has found stands at the start of the written one. -/
theorem targetOf_reachesPeer (h : ReachesPeer beyond skcf r) :
    ∃ t0 more rest j k t, h1pPeerRequestTarget beyond r ++ versionText ++
        (fieldLines (peerFieldList r) ++ crlf) = replicate j 0x20 ++ 0x2F :: t0 ++ more ∧
      LineEnd more rest (k + 1) ∧ TargetFits (0x2F :: t0) ∧
      httpParseComplexTarget false (0x2F :: t0) = some t ∧ t.path = r.path ∧
      t.args.getD [] = r.args := by
  obtain ⟨rp, hparse, hm, hpath, hargs, -⟩ := h
  obtain ⟨hfits, rest, htext⟩ := lineFits_of_parse hparse
  obtain ⟨t, ht, htp, hta⟩ := hfits.parsed
  have hslash : rp.target.head? = some 0x2F := hfits.slash
  obtain ⟨t0, ht0⟩ : ∃ t0, rp.target = 0x2F :: t0 := by
    cases htarget : rp.target with
    | nil => simp [htarget] at hslash
    | cons c t0 => ?_
    rw [htarget] at hslash
    exact ⟨t0, by rw [Option.some.inj hslash]⟩
  rw [h1pPeerHeaderSend_eq, hm, append_nil] at htext
  obtain ⟨more, j, k, heq, hline⟩ := lineText_target hmethod htext
  rw [ht0] at heq
  refine ⟨t0, more, rest, j, k, t, heq, hline, ?_, ?_, htp.symm.trans hpath, hta.symm.trans hargs⟩
  · rw [← ht0]
    exact hfits.target
  · rw [← ht0]
    exact ht

end Head

end FreeUnit
