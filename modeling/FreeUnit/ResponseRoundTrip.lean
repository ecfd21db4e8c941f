/-
The header of a response, written for a client and read back as a peer's.

`nxt_h1p_peer_header_parse` reads the status line, then the fields with the
parser of requests; interim responses are dropped.

* `peerStatusLine_statusLine` — which statuses are read back from the status
  line;
* `headerSend_readBack_iff` — which headers are read back as they were written.
-/
import FreeUnit.ResponseHeader

namespace FreeUnit

open List

/-! ### The header of a peer -/

inductive StatusScan where
  | again
  | error
  | line (status : HttpStatus) (rest : Bytes)
  deriving DecidableEq, Repr

/-- The status line in `nxt_h1p_peer_header_parse`. -/
def peerStatusLine (b : Bytes) : StatusScan :=
  if b.length < 12 then .again
  else if b.take 7 ≠ str "HTTP/1." ∨ (b[7]? ≠ some 0x30 ∧ b[7]? ≠ some 0x31) then .error
  else
    match intParse ((b.drop 9).take 3) with
    | none => .error
    | some status =>
      match (b.drop 12).dropWhile (· != 0x0A) with
      | [] => .again
      | _ :: rest => .line status rest

def peerStatusInterim (status : HttpStatus) : Bool :=
  decide (status ≥ 100) && decide (status < 200) && status != 101

/-- What a call of `nxt_h1p_peer_header_parse` returns, with the state it
leaves. -/
inductive PeerParse where
  | again (status : Option HttpStatus) (handler : ParseHandler) (rp : RequestParse) (b : Bytes)
  | error
  | done (status : HttpStatus) (rp : RequestParse) (b : Bytes)
  deriving DecidableEq, Repr

/-- The fields after the status line; `next` reads the response behind an
interim one. -/
def peerFieldsParse (next : RequestParse → Bytes → PeerParse) (status : HttpStatus)
    (handler : ParseHandler) (rp : RequestParse) (b : Bytes) : PeerParse :=
  match httpParseRequest handler rp b with
  | .done rp b => if peerStatusInterim status then next rp b else .done status rp b
  | .again handler rp b => .again (some status) handler rp b
  | _ => .error

/-- `nxt_h1p_peer_header_parse`, with the number of interim responses that may
still come and the status that was read before. -/
def h1pPeerHeaderParse : ℕ → Option HttpStatus → ParseHandler → RequestParse → Bytes → PeerParse
  | interims, status, handler, rp, b =>
    let next : RequestParse → Bytes → PeerParse := fun rp b =>
      match interims with
      | 0 => .error
      | interims + 1 => h1pPeerHeaderParse interims none .fieldName rp b
    match status with
    | some status => peerFieldsParse next status handler rp b
    | none =>
      match peerStatusLine b with
      | .again => .again none handler rp b
      | .error => .error
      | .line status b =>
        peerFieldsParse next status handler
          { rp with discardFields := peerStatusInterim status } b

def httpMaxInterimResponses : ℕ := 10

def peerHeaderParse (b : Bytes) : PeerParse :=
  h1pPeerHeaderParse httpMaxInterimResponses none .fieldName
    (httpParseRequestInit false false false) b

def PeerStart (rp : RequestParse) : Prop := FieldsRead false ([], [], [], []) rp

theorem peerStart_init : PeerStart (httpParseRequestInit false false false) :=
  ⟨⟨rfl, rfl, rfl, rfl⟩, rfl, rfl, fun f hf => (by cases hf)⟩

/-- What the fields of one response leave is a start for the next one. -/
theorem peerFieldsParse_done {next : RequestParse → Bytes → PeerParse}
    {status status' : HttpStatus} {rp rp' : RequestParse} {b rest : Bytes}
    (hrp : PeerStart rp)
    (hnext : ∀ {rp b}, PeerStart rp → next rp b = .done status' rp' rest → PeerStart rp')
    (h : peerFieldsParse next status .fieldName rp b = .done status' rp' rest) : PeerStart rp' := by
  rw [peerFieldsParse] at h
  cases hparse : httpParseRequest .fieldName rp b with
  | ok | again | error =>
    rw [hparse] at h
    cases h
  | done rp1 b1 => ?_
  have hrp1 : PeerStart rp1 := fieldsRead_of_fields hrp hparse
  rw [hparse] at h
  dsimp only at h
  split_ifs at h
  · exact hnext hrp1 h
  cases h
  exact hrp1

theorem h1pPeerHeaderParse_done (interims : ℕ) {rp rp' : RequestParse} {b rest : Bytes}
    {status : HttpStatus} (hrp : PeerStart rp)
    (h : h1pPeerHeaderParse interims none .fieldName rp b = .done status rp' rest) :
    PeerStart rp' := by
  induction interims using Nat.strong_induction_on generalizing rp rp' b rest status with
  | _ interims ih =>
    rw [h1pPeerHeaderParse] at h
    cases hline : peerStatusLine b with
    | again | error =>
      rw [hline] at h
      cases h
    | line status1 b1 => ?_
    rw [hline] at h
    refine peerFieldsParse_done ?_ (fun hstart hnext => ?_) h
    · exact ⟨⟨hrp.start.name, hrp.start.value, hrp.start.hash, hrp.start.skip⟩, hrp.discard,
        hrp.fits.line, hrp.fits.fields⟩
    · cases interims with
      | zero => cases hnext
      | succ interims => exact ih interims (Nat.lt_succ_self _) hstart hnext

/-- **The fields of a peer's response** are fields that the parser would read
again. -/
theorem peerHeaderParse_fields {b rest : Bytes} {status : HttpStatus} {rp : RequestParse}
    (h : peerHeaderParse b = .done status rp rest) : ∀ f ∈ rp.fields, FieldFits false f :=
  (h1pPeerHeaderParse_done _ peerStart_init h).fits.fields

/-! ### Status lines -/

def endsLine : Bytes → Bool
  | [] => false
  | [c] => c == 0x0A
  | c :: text => c != 0x0A && endsLine text

def statusLineOk (n : HttpStatus) : Bytes → Bool
  | c0 :: c1 :: c2 :: c3 :: c4 :: c5 :: c6 :: c7 :: _ :: d1 :: d2 :: d3 :: text =>
    [c0, c1, c2, c3, c4, c5, c6] == [0x48, 0x54, 0x54, 0x50, 0x2F, 0x31, 0x2E] && c7 == 0x31 &&
      intParse [d1, d2, d3] == some n && endsLine text
  | _ => false

theorem dropWhile_of_endsLine : ∀ {text : Bytes}, endsLine text = true → ∀ rest : Bytes,
    (text ++ rest).dropWhile (· != 0x0A) = 0x0A :: rest := by
  intro text
  induction text with
  | nil => exact fun h => (by cases h)
  | cons c text ih => ?_
  intro h rest
  cases text with
  | nil =>
    rw [endsLine, beq_iff_eq] at h
    rw [h]
    rfl
  | cons d text => ?_
  rw [endsLine, Bool.and_eq_true] at h
  · rw [cons_append, dropWhile_cons, if_pos h.1]
    exact ih h.2 rest
  · exact fun hnil => (by cases hnil)

theorem peerStatusLine_of_ok {n : HttpStatus} {text : Bytes} (h : statusLineOk n text = true)
    (rest : Bytes) : peerStatusLine (text ++ rest) = .line n rest := by
  have hhttp : str "HTTP/1." = [0x48, 0x54, 0x54, 0x50, 0x2F, 0x31, 0x2E] := by decide
  rw [statusLineOk.eq_def] at h
  split at h
  · rename_i c0 c1 c2 c3 c4 c5 c6 c7 c8 d1 d2 d3 text
    simp only [Bool.and_eq_true, beq_iff_eq] at h
    obtain ⟨⟨⟨hname, hminor⟩, hstatus⟩, hend⟩ := h
    have hlen : ¬ (c0 :: c1 :: c2 :: c3 :: c4 :: c5 :: c6 :: c7 :: c8 :: d1 :: d2 :: d3 ::
        text ++ rest).length < 12 := by
      simp
    rw [peerStatusLine, if_neg hlen, if_neg]
    · show (match intParse [d1, d2, d3] with
        | none => StatusScan.error
        | some status =>
          match (text ++ rest).dropWhile (· != 0x0A) with
          | [] => .again
          | _ :: rest => .line status rest) = _
      rw [hstatus, dropWhile_of_endsLine hend]
    rw [hhttp]
    show ¬ ([c0, c1, c2, c3, c4, c5, c6] ≠ _ ∨ (some c7 ≠ some 0x30 ∧ some c7 ≠ some 0x31))
    rw [hname, hminor]
    decide
  · cases h

/-- The status that a peer reads in a status line: the table of redirections has
no lines for 305 and 306, and those of 307 and 308 are in their places. -/
def readStatus (n : HttpStatus) : HttpStatus :=
  if n = 305 then 307 else if n = 306 then 308 else n

/-- The lines of a table carry the statuses of their places, as far as they are
read so. -/
def tableOk (first : HttpStatus) (table : List Bytes) : Bool :=
  table.zipIdx.all fun e => statusLineOk (readStatus (first + e.2)) e.1

theorem statusLineOk_of_entry {first n : HttpStatus} {table : List Bytes} {text : Bytes}
    (htable : tableOk first table = true) (h : statusEntry first table n = some text) :
    statusLineOk (readStatus n) text = true := by
  rw [statusEntry] at h
  split_ifs at h with hfirst
  rw [tableOk, all_eq_true] at htable
  have hmem : (text, n - first) ∈ table.zipIdx := mem_zipIdx_iff_getElem?.mpr h
  have hok := htable _ hmem
  rwa [Nat.add_sub_cancel' hfirst] at hok

theorem intParse_threeDigits : ∀ n ≤ 999, intParse (threeDigits n) = some n := by
  decide +kernel

theorem statusLineOk_unknown {n : ℕ} (hn : n ≤ 999) :
    statusLineOk n (str "HTTP/1.1 " ++ threeDigits n ++ str " \r\n") = true := by
  have htext : str "HTTP/1.1 " ++ threeDigits n ++ str " \r\n" =
      [0x48, 0x54, 0x54, 0x50, 0x2F, 0x31, 0x2E, 0x31, 0x20] ++ threeDigits n ++
        [0x20, 0x0D, 0x0A] := by
    rw [show str "HTTP/1.1 " = [0x48, 0x54, 0x54, 0x50, 0x2F, 0x31, 0x2E, 0x31, 0x20] by decide,
      show str " \r\n" = [0x20, 0x0D, 0x0A] by decide]
  have hparse := intParse_threeDigits n hn
  rw [threeDigits] at hparse htext
  rw [threeDigits, htext]
  show (true && true && (intParse _ == some n) && true) = true
  rw [hparse]
  simp

/-- **The statuses that are read back** from the status lines. -/
theorem statusLineOk_statusLine {n : ℕ} (hlow : 200 ≤ n) (hhigh : n ≤ 599)
    (hplain : n ≠ 497) : statusLineOk (readStatus n) (statusLine n) = true := by
  have hsuccess : tableOk 200 httpSuccess = true := by decide +kernel
  have hredirection : tableOk 300 httpRedirection = true := by decide +kernel
  have hclient : tableOk 400 httpClientError = true := by decide +kernel
  have hserver : tableOk 500 httpServerError = true := by decide +kernel
  have hinformational : statusEntry 100 httpInformational n = none := by
    have hfirst : 100 ≤ n := by omega
    have hlen : httpInformational.length ≤ n - 100 := show 2 ≤ n - 100 by omega
    rw [statusEntry, if_pos hfirst, getElem?_eq_none hlen]
  have hnginx : statusEntry 497 httpNginxError n = none := by
    rw [statusEntry]
    by_cases hfirst : 497 ≤ n
    · have hlen : httpNginxError.length ≤ n - 497 := show 1 ≤ n - 497 by omega
      rw [if_pos hfirst, getElem?_eq_none hlen]
    · rw [if_neg hfirst]
  rw [statusLine, hinformational, hnginx, Option.none_or, Option.none_or]
  cases h200 : statusEntry 200 httpSuccess n with
  | some text => exact statusLineOk_of_entry hsuccess h200
  | none => ?_
  rw [Option.none_or]
  cases h300 : statusEntry 300 httpRedirection n with
  | some text => exact statusLineOk_of_entry hredirection h300
  | none => ?_
  rw [Option.none_or]
  cases h400 : statusEntry 400 httpClientError n with
  | some text => exact statusLineOk_of_entry hclient h400
  | none => ?_
  rw [Option.none_or]
  cases h500 : statusEntry 500 httpServerError n with
  | some text => exact statusLineOk_of_entry hserver h500
  | none => ?_
  -- a status of no table is not one that is read as another
  have hread : readStatus n = n := by
    rw [readStatus, if_neg, if_neg]
    · rintro rfl
      cases h300
    rintro rfl
    cases h300
  have hknown : n ≤ 999 := by omega
  rw [hread, Option.getD_none, if_pos hknown]
  exact statusLineOk_unknown hknown

/-! ### Headers that are read back -/

/-- A byte of a token: a digit, a letter or one of 15 signs. -/
def isTokenChar (c : UInt8) : Bool :=
  isDigit c || (0x41 ≤ c && c ≤ 0x5A) || (0x61 ≤ c && c ≤ 0x7A) ||
    [0x21, 0x23, 0x24, 0x25, 0x26, 0x27, 0x2A, 0x2B, 0x2D, 0x2E, 0x5E, 0x5F, 0x60, 0x7C,
      0x7E].contains c

/-- A field whose name is a token, and whose value holds no control bytes and no
blanks at its ends. -/
structure FieldClean (f : HttpField) : Prop where
  nonempty : f.name ≠ []
  token : ∀ c ∈ f.name, isTokenChar c = true
  visible : ∀ c ∈ f.value, 0x20 ≤ c ∧ c ≠ 0x7F
  first : f.value.head? ≠ some 0x20
  last : f.value.getLast? ≠ some 0x20

def HttpField.fitsLengths (f : HttpField) : Prop :=
  f.name.length ≤ httpMaxFieldName ∧ f.value.length ≤ httpMaxFieldValue

theorem FieldClean.fits {f : HttpField} (h : FieldClean f) (hlen : f.fitsLengths) :
    NameFits false f.name ∧ ValueFits f.value := by
  have hname : ∀ c : UInt8, isTokenChar c = true → isNameChar c = true := by decide +kernel
  have hvalue : ∀ c : UInt8, 0x20 ≤ c ∧ c ≠ 0x7F → isValueChar c = true := by grind [isValueChar]
  have hblank : ∀ c : UInt8, 0x20 ≤ c ∧ c ≠ 0x7F → isBlank c = true → c = 0x20 := by
    grind [isBlank]
  refine ⟨⟨h.nonempty, fun c hc => hname c (h.token c hc), rfl, hlen.1⟩,
    fun c hc => hvalue c (h.visible c hc), fun hdel => (h.visible _ hdel).2 rfl, ?_, ?_, hlen.2⟩
  · rw [dropWhile_eq_self_iff]
    intro hpos hb
    refine h.first ?_
    rw [head?_eq_getElem?, getElem?_eq_getElem hpos, hblank _ (h.visible _ (getElem_mem hpos)) hb]
  · rw [trimValue, rdropWhile_eq_self_iff]
    intro hne hb
    refine h.last ?_
    rw [getLast?_eq_getLast_of_ne_nil hne, hblank _ (h.visible _ (getLast_mem hne)) hb]

/-- The fields that the HTTP/1 layer adds to a final response. -/
theorem protocolFields_fit {ctx : SendContext} {r : Response} (hstatus : r.status ≠ 101) :
    ∀ f ∈ protocolFields ctx r, NameFits false f.name ∧ ValueFits f.value := by
  have hfit : ∀ {name value : Bytes}, isSafeName name = true →
      (value.all fun c => 0x21 ≤ c && c != 0x7F) = true → value.length ≤ httpMaxFieldValue →
      NameFits false (HttpField.ofLine name value).name ∧
        ValueFits (HttpField.ofLine name value).value := by
    intro name value hname hvalue hlen
    rw [all_eq_true] at hvalue
    refine ⟨nameFits_of_isSafeName _ hname, valueFits_of_visible (fun c hc => ?_) hlen⟩
    simpa using hvalue c hc
  have hup : r.upgrades ctx = false := by
    rw [Response.upgrades, Bool.and_eq_false_iff]
    exact .inr (by simpa using hstatus)
  intro f hf
  rw [protocolFields, mem_append, mem_append] at hf
  rcases hf with (hf | hf) | hf
  · rw [Response.connection, hup, if_neg (by simp)] at hf
    split_ifs at hf
    · rw [mem_singleton.mp hf]
      exact hfit (by decide) (by decide) (by decide)
    · rw [mem_singleton.mp hf]
      exact hfit (by decide) (by decide) (by decide)
    · cases hf
  · split_ifs at hf
    · rw [mem_singleton.mp hf]
      exact hfit (by decide) (by decide) (by decide)
    · cases hf
  split_ifs at hf
  · rw [mem_singleton.mp hf]
    exact hfit (by decide) (by decide) (by decide)
  · cases hf

/-- **The header is read back**: the status, the fields that are not skipped in
their order, and then only those of the HTTP/1 layer. -/
def ReadBack (ctx : SendContext) (r : Response) : Prop :=
  ∃ rp, peerHeaderParse (h1pRequestHeaderSend ctx r).bytes = .done r.status rp [] ∧
    rp.fields.map HttpField.pair =
      (r.fields.filter fun f => !f.skip).map HttpField.pair ++
        (protocolFields ctx r).map HttpField.pair

theorem peerHeaderParse_headerSend_iff (ctx : SendContext) {r : Response}
    (hlow : 200 ≤ r.status) (hhigh : r.status ≤ 599) (hplain : r.status ≠ 497)
    (status : HttpStatus) (rp : RequestParse) (rest : Bytes) :
    peerHeaderParse (h1pRequestHeaderSend ctx r).bytes = .done status rp rest ↔
      status = readStatus r.status ∧
        httpParseRequest .fieldName (httpParseRequestInit false false false)
          (fieldLines (sentFields ctx r) ++ crlf ++ []) = .done rp rest := by
  have hline := peerStatusLine_of_ok (statusLineOk_statusLine hlow hhigh hplain)
    (fieldLines (sentFields ctx r) ++ crlf ++ [])
  have hread : 200 ≤ readStatus r.status := by
    rw [readStatus]
    split_ifs
    · decide
    · decide
    · exact hlow
  have hfinal : peerStatusInterim (readStatus r.status) = false := by
    simp [peerStatusInterim, not_lt.mpr hread]
  have hbytes : (h1pRequestHeaderSend ctx r).bytes =
      statusLine r.status ++ (fieldLines (sentFields ctx r) ++ crlf ++ []) := by
    rw [h1pRequestHeaderSend_bytes, append_nil, append_assoc]
  rw [peerHeaderParse, hbytes, h1pPeerHeaderParse, hline]
  dsimp only
  rw [hfinal, peerFieldsParse, hfinal]
  show (match httpParseRequest .fieldName (httpParseRequestInit false false false) _ with
    | .done rp b => PeerParse.done (readStatus r.status) rp b
    | .again handler rp b => .again (some (readStatus r.status)) handler rp b | _ => .error) = _ ↔ _
  cases httpParseRequest .fieldName (httpParseRequestInit false false false)
      (fieldLines (sentFields ctx r) ++ crlf ++ []) with
  | done rp1 b1 =>
    constructor
    · intro h
      cases h
      exact ⟨rfl, rfl⟩
    · rintro ⟨rfl, h⟩
      cases h
      rfl
  | ok rp1 b1 => exact ⟨fun h => (by cases h), fun h => (by cases h.2)⟩
  | again handler rp1 b1 => exact ⟨fun h => (by cases h), fun h => (by cases h.2)⟩
  | error code rp1 => exact ⟨fun h => (by cases h), fun h => (by cases h.2)⟩

/-- **Headers are read back as they were written**, but for the statuses 305 and
306 and for fields longer than the parser takes. -/
theorem headerSend_readBack_iff (ctx : SendContext) (r : Response) (hlow : 200 ≤ r.status)
    (hhigh : r.status ≤ 599) (hplain : r.status ≠ 497)
    (hclean : ∀ f ∈ r.fields, f.skip = false → FieldClean f) :
    ReadBack ctx r ↔ r.status ≠ 305 ∧ r.status ≠ 306 ∧
      ∀ f ∈ r.fields, f.skip = false → f.fitsLengths := by
  have hparse := peerHeaderParse_headerSend_iff ctx hlow hhigh hplain
  have hsent : (sentFields ctx r).map HttpField.pair =
      (r.fields.filter fun f => !f.skip).map HttpField.pair ++
        (protocolFields ctx r).map HttpField.pair := by
    rw [sentFields, map_append]
  constructor
  · rintro ⟨rp, hdone, hfields⟩
    have hread := ((hparse _ _ _).mp hdone).1
    refine ⟨fun h => ?_, fun h => ?_, fun f hf hskip => ?_⟩
    · rw [h] at hread
      exact absurd hread (by decide)
    · rw [h] at hread
      exact absurd hread (by decide)
    · -- the parser has stored this field, so it fits
      have hmem : f.pair ∈ rp.fields.map HttpField.pair := by
        rw [hfields]
        exact mem_append_left _ (mem_map_of_mem (mem_filter.mpr ⟨hf, by simp [hskip]⟩))
      obtain ⟨g, hg, hpair⟩ := mem_map.mp hmem
      have hfit := peerHeaderParse_fields hdone g hg
      simp only [HttpField.pair, Prod.mk.injEq] at hpair
      rw [HttpField.fitsLengths, ← hpair.1, ← hpair.2]
      exact ⟨hfit.name.length, hfit.value.length⟩
  · rintro ⟨h305, h306, hlengths⟩
    have hread : readStatus r.status = r.status := by
      rw [readStatus, if_neg h305, if_neg h306]
    have hfits : ∀ f ∈ sentFields ctx r, NameFits false f.name ∧ ValueFits f.value := by
      intro f hf
      rcases mem_append.mp hf with hf | hf
      · obtain ⟨hf, hskip⟩ := mem_filter.mp hf
        rw [Bool.not_eq_true'] at hskip
        exact (hclean f hf hskip).fits (hlengths f hf hskip)
      · exact protocolFields_fit (fun h => absurd (h ▸ hlow) (by decide)) f hf
    have hback := httpParseRequest_fieldLines [] (sentFields ctx r)
      (show FieldStart (httpParseRequestInit false false false) from ⟨rfl, rfl, rfl, rfl⟩) rfl hfits
    refine ⟨_, (hparse _ _ _).mpr ⟨hread.symm, hback⟩, ?_⟩
    rw [← hsent]
    simp [httpParseRequestInit, HttpField.pair, HttpField.ofLine, Function.comp_def]

/-- A status of a table, a field to send and a skipped one. -/
theorem headerSend_readBack_notFound :
    ReadBack {} { status := 404, fields := [
      { name := str "X-Token", value := str "a b", hash := 0 },
      { name := str "Server", value := [0x0A], hash := 0, skip := true }] } := by
  refine (headerSend_readBack_iff {} _ (by decide) (by decide) (by decide) ?_).mpr
    ⟨by decide, by decide, ?_⟩
  · intro f hf hskip
    simp only [mem_cons, not_mem_nil, or_false] at hf
    rcases hf with rfl | rfl
    · exact ⟨by decide, by decide +kernel, by decide +kernel, by decide, by decide⟩
    · cases hskip
  intro f hf hskip
  simp only [mem_cons, not_mem_nil, or_false] at hf
  rcases hf with rfl | rfl
  · exact ⟨by decide, by decide⟩
  · cases hskip

/-- The status 305 is sent as 307. -/
theorem headerSend_useProxy :
    statusLine 305 = str "HTTP/1.1 307 Temporary Redirect\r\n" ∧
      ¬ ReadBack {} { status := 305 } := by
  refine ⟨by decide, ?_⟩
  rintro ⟨rp, hdone, -⟩
  have hread := ((peerHeaderParse_headerSend_iff {} (by decide) (by decide) (by decide) _ _ _).mp
    hdone).1
  exact absurd hread (by decide)

end FreeUnit
