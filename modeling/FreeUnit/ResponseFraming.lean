/-
The framing fields of the header that is sent to a client.

A response comes from an application or from a peer; its Content-Length and
Transfer-Encoding lines are filtered in different places, and the request layer
and the HTTP/1 layer add theirs.

* `sentHeader_framedOnce_iff` — for which responses of an application or a peer the
  header is framed in one way.
-/
import FreeUnit.PeerRequest
import FreeUnit.ResponseHeader

namespace FreeUnit

open List

/-- **A header that frames its body in one way**: one Content-Length at most,
which is a number, or the Transfer-Encoding that the HTTP/1 layer adds when it
chunks the body. -/
structure FramedOnce (lines : List HttpField) (chunked : Bool) : Prop where
  single : (shown lengthName lines).length ≤ 1
  valid : ∀ f ∈ shown lengthName lines, f.lengthValid = true
  exclusive : shown lengthName lines = [] ∨ shown codingName lines = []
  coding : shown codingName lines =
    if chunked then [.ofLine codingName (str "chunked")] else []

def isFramingName (name : Bytes) : Bool :=
  strcasestrEq name lengthName || strcasestrEq name codingName

/-! ### Edits beside the framing -/

theorem setHeader_keepsFraming {key : Bytes × Option Bytes} (hkey : isFramingName key.1 = false)
    (fields : List HttpField) : KeepsFraming fields (setHeader fields key) := by
  rw [isFramingName, Bool.or_eq_false_iff] at hkey
  rw [setHeader]
  by_cases hrejected : setHeadersUnsafe key.2 = true
  · rw [if_pos hrejected]
    exact .refl fields
  rw [if_neg hrejected]
  cases key.2 with
  | none => exact .modifyShown fields hkey.1 hkey.2 fun f => rfl
  | some value => ?_
  dsimp only
  split_ifs
  · exact .append hkey.1 hkey.2
  · exact .modifyShown fields hkey.1 hkey.2 fun f => rfl

theorem foldl_setHeader_keepsFraming : ∀ {keys : List (Bytes × Option Bytes)}
    (_ : ∀ key ∈ keys, isFramingName key.1 = false) (fields : List HttpField),
    KeepsFraming fields (keys.foldl setHeader fields) := by
  intro keys
  induction keys with
  | nil => exact fun _ fields => .refl fields
  | cons key keys ih => ?_
  intro hkeys fields
  rw [forall_mem_cons] at hkeys
  exact (setHeader_keepsFraming hkeys.1 fields).trans (ih hkeys.2 _)

variable {name : Bytes} {ctx : SendContext} {r : Response}

theorem add_keepsFraming (hname : isFramingName name = false) (value : Bytes)
    (r : Response) : KeepsFraming r.fields (r.add name value).fields := by
  rw [isFramingName, Bool.or_eq_false_iff] at hname
  exact .append hname.1 hname.2

theorem mergeVary_keepsFraming (r : Response) : KeepsFraming r.fields (mergeVary r).fields := by
  rw [mergeVary]
  split_ifs
  · exact add_keepsFraming (by decide) _ r
  · exact .modifyShown r.fields (by decide) (by decide) fun f => rfl

theorem weakenEtag_keepsFraming (r : Response) : KeepsFraming r.fields (weakenEtag r).fields := by
  refine .modifyShown r.fields (by decide) (by decide) fun f => ?_
  split_ifs
  · rfl
  · rfl

theorem skipFields_keepsFraming (hname : isFramingName name = false)
    (fields : List HttpField) : KeepsFraming fields (skipFields name fields) := by
  rw [isFramingName, Bool.or_eq_false_iff] at hname
  refine .map fields (fun f hf => if_neg fun hsame => ?_) fun f => ?_
  · rcases hf with hf | hf
    · rw [strcasestrEq_trans hsame hf] at hname
      cases hname.1
    rw [strcasestrEq_trans hsame hf] at hname
    cases hname.2
  · split_ifs
    · rfl
    · rfl

/-- The fields of the response before the framing is looked at. -/
def editedResponse (ctx : SendContext) (r : Response) : Response :=
  let r := setHeaders ctx.setHeaders r
  let r := if r.varyAcceptEncoding then mergeVary r else r
  if r.coded then { r with fields := skipFields (str "Accept-Ranges") r.fields } else r

theorem requestHeaderSend_eq (ctx : SendContext) (r : Response) :
    requestHeaderSend ctx r = addServerFields ctx (dropFraming ctx (editedResponse ctx r)) := rfl

structure SameFraming (r r' : Response) : Prop where
  fields : KeepsFraming r.fields r'.fields
  slot : r'.contentLength = r.contentLength
  number : r'.contentLengthN = r.contentLengthN
  status : r'.status = r.status

theorem SameFraming.trans {a b c : Response} (hab : SameFraming a b) (hbc : SameFraming b c) :
    SameFraming a c :=
  ⟨hab.fields.trans hbc.fields, hbc.slot.trans hab.slot, hbc.number.trans hab.number,
    hbc.status.trans hab.status⟩

theorem mergeVary_sameFraming (r : Response) : SameFraming r (mergeVary r) := by
  refine ⟨mergeVary_keepsFraming r, ?_, ?_, ?_⟩
  all_goals
    rw [mergeVary]
    split_ifs
    · rfl
    · rfl

theorem editedResponse_sameFraming (hconf : ∀ key ∈ ctx.setHeaders, isFramingName key.1 = false) :
    SameFraming r (editedResponse ctx r) := by
  have hset : SameFraming r (setHeaders ctx.setHeaders r) := by
    rw [setHeaders]
    split_ifs
    · exact ⟨.refl _, rfl, rfl, rfl⟩
    · exact ⟨foldl_setHeader_keepsFraming hconf _, rfl, rfl, rfl⟩
  have hvary : ∀ s : Response, SameFraming s (if s.varyAcceptEncoding then mergeVary s else s) := by
    intro s
    split_ifs
    · exact mergeVary_sameFraming s
    · exact ⟨.refl _, rfl, rfl, rfl⟩
  have hranges : ∀ s : Response, SameFraming s
      (if s.coded then { s with fields := skipFields (str "Accept-Ranges") s.fields } else s) := by
    intro s
    split_ifs
    · exact ⟨skipFields_keepsFraming (by decide) _, rfl, rfl, rfl⟩
    · exact ⟨.refl _, rfl, rfl, rfl⟩
  exact (hset.trans (hvary _)).trans (hranges _)

/-! ### Dropping and adding framing fields -/

theorem shown_dropFramingFields (hname : name = lengthName ∨ name = codingName)
    (fields : List HttpField) : shown name (dropFramingFields fields) = [] := by
  rw [shown, filter_eq_nil_iff]
  intro f hf
  obtain ⟨g, -, rfl⟩ := mem_map.mp hf
  by_cases hg : (strcasestrEq g.name lengthName || strcasestrEq g.name codingName) = true
  · simp [hg]
  rw [if_neg hg]
  rw [Bool.not_eq_true, Bool.or_eq_false_iff] at hg
  rcases hname with rfl | rfl
  · simp [hg.1]
  · simp [hg.2]

/-- A response that must not be framed loses all that frames it. -/
theorem dropFraming_forbidden (h : Tracked r) (hforbidden : framingForbidden ctx r.status = true) :
    shown lengthName (dropFraming ctx r).fields = [] ∧
      shown codingName (dropFraming ctx r).fields = [] ∧
      (dropFraming ctx r).contentLengthN = none ∧ Tracked (dropFraming ctx r) := by
  rw [dropFraming, if_pos hforbidden]
  have hlength := shown_dropFramingFields (.inl rfl) r.fields
  refine ⟨hlength, shown_dropFramingFields (.inr rfl) r.fields, rfl, ?_⟩
  cases hslot : r.contentLength with
  | none | peer => exact ⟨fun hs => (by cases hs), fun _ => hlength, fun hu => (by cases hu)⟩
  | stored i => ?_
  obtain ⟨g, hg, hname⟩ := h.slot hslot
  -- the field the response points to is dropped with the others
  have hat : (dropFramingFields r.fields)[i]? = some { g with skip := true } := by
    rw [dropFramingFields, getElem?_map, hg, Option.map_some, if_pos (by simp [hname])]
  refine ⟨fun hs => ?_, fun _ => hlength, fun hu => ?_⟩
  · cases hs
    exact ⟨_, hat, hname⟩
  · rw [Response.lengthUnset] at hu
    dsimp only at hu
    rw [hat] at hu
    cases hu

theorem addServerFields_cases (ctx : SendContext) (r : Response) : ∃ s : Response, SameFraming r s ∧
      ((addServerFields ctx r = s ∧ (r.contentLengthN = none ∨ s.lengthUnset = false)) ∨
        ∃ n, r.contentLengthN = some n ∧ s.lengthUnset = true ∧
          addServerFields ctx r = { s.add lengthName (decimal n) with
            contentLength := .stored s.fields.length }) := by
  have hserver : SameFraming r (r.add (str "Server") ctx.serverString) :=
    ⟨add_keepsFraming (by decide) _ r, rfl, rfl, rfl⟩
  have hdate : ∀ s : Response, SameFraming s
      (if s.date then s else { s.add (str "Date") ctx.dateString with date := true }) := by
    intro s
    split_ifs
    · exact ⟨.refl _, rfl, rfl, rfl⟩
    · exact ⟨add_keepsFraming (by decide) _ s, rfl, rfl, rfl⟩
  refine ⟨_, hserver.trans (hdate _), ?_⟩
  have hn := (hserver.trans (hdate _)).number
  rw [addServerFields]
  dsimp only
  rw [hn]
  cases hr : r.contentLengthN with
  | none => exact .inl ⟨rfl, .inl rfl⟩
  | some n => ?_
  dsimp only
  cases hu : Response.lengthUnset _ with
  | false => exact .inl ⟨if_neg (by simp), .inr rfl⟩
  | true => exact .inr ⟨n, rfl, rfl, if_pos rfl⟩

/-! ### The header section -/

theorem shown_filter_skip (name : Bytes) (fields : List HttpField) :
    shown name (fields.filter fun f => !f.skip) = shown name fields := by
  rw [shown, shown, filter_filter]
  refine filter_congr fun f _ => ?_
  cases f.skip with
  | false => simp
  | true => rfl

variable {fields : List HttpField}

theorem shown_eq_nil (h : ∀ f ∈ fields, strcasestrEq f.name name = false) :
    shown name fields = [] := by
  rw [shown, filter_eq_nil_iff]
  intro f hf
  simp [h f hf]

theorem connection_names (ctx : SendContext) (r : Response) :
    ∀ f ∈ ((r.connection ctx).map (·.fields ctx.websocketAccept)).getD [],
      f.name ∈ [str "Connection", str "Upgrade", str "Sec-WebSocket-Accept"] := by
  cases r.connection ctx with
  | none =>
    intro f hf
    cases hf
  | some text => ?_
  cases text with
  | close | keepAlive | upgrade => simp [ConnectionText.fields, HttpField.ofLine]

/-- The HTTP/1 layer adds the Transfer-Encoding of a chunked body, and no
Content-Length. -/
theorem shown_protocolFields (ctx : SendContext) (r : Response) :
    shown lengthName (protocolFields ctx r) = [] ∧ shown codingName (protocolFields ctx r) =
        if r.chunks ctx then [.ofLine codingName (str "chunked")] else [] := by
  have hkey : ∀ name ∈ [str "Connection", str "Upgrade", str "Sec-WebSocket-Accept"],
      strcasestrEq name lengthName = false ∧ strcasestrEq name codingName = false := by
    decide
  have hconn := connection_names ctx r
  have hlength := shown_eq_nil fun f hf => (hkey _ (hconn f hf)).1
  have hcoding := shown_eq_nil fun f hf => (hkey _ (hconn f hf)).2
  rw [protocolFields, shown_append, shown_append, shown_append, shown_append, hlength, hcoding]
  constructor
  · split_ifs <;> decide
  · split_ifs <;> decide

/-- A header that tracks its Content-Length is framed in one way when it has no
Transfer-Encoding of its own and its Content-Length is a number. -/
theorem sentFields_framedOnce_iff (h : Tracked r) : FramedOnce (sentFields ctx r) (r.chunks ctx) ↔
      shown codingName r.fields = [] ∧ ∀ f ∈ shown lengthName r.fields, f.lengthValid = true := by
  obtain ⟨hlength, hcoding⟩ := shown_protocolFields ctx r
  have hsentLength : shown lengthName (sentFields ctx r) = shown lengthName r.fields := by
    rw [sentFields, shown_append, shown_filter_skip, hlength, append_nil]
  have hsentCoding : shown codingName (sentFields ctx r) = shown codingName r.fields ++
      if r.chunks ctx then [.ofLine codingName (str "chunked")] else [] := by
    rw [sentFields, shown_append, shown_filter_skip, hcoding]
  constructor
  · intro hframed
    have hown := hframed.coding
    rw [hsentCoding, append_left_eq_self] at hown
    refine ⟨hown, fun f hf => hframed.valid f ?_⟩
    rwa [hsentLength]
  · rintro ⟨hown, hvalid⟩
    rw [hown, nil_append] at hsentCoding
    refine ⟨?_, ?_, ?_, hsentCoding⟩
    · rw [hsentLength]
      cases hu : r.lengthUnset with
      | true => rw [h.unset hu, length_nil]; exact Nat.zero_le 1
      | false => ?_
      obtain ⟨g, hg⟩ := h.set hu
      rw [hg, length_singleton]
    · rw [hsentLength]
      exact hvalid
    · rw [hsentLength, hsentCoding]
      cases hchunks : r.chunks ctx with
      | false => exact .inr rfl
      | true => ?_
      -- a body is chunked only without a Content-Length
      rw [Response.chunks] at hchunks
      simp only [Bool.and_eq_true] at hchunks
      exact .inl (h.unset hchunks.1.1.1.1.1.2)

theorem trimBlanks_of_valueFits {v : Bytes} (h : ValueFits v) : trimBlanks v = v := by
  rw [trimBlanks, h.first]
  exact h.last

theorem lengthValid_decimal {n : ℕ} (hn : n ≤ offTMax) {f : HttpField} (hf : f.value = decimal n) :
    f.lengthValid = true := by
  have htrim : trimBlanks (decimal n) = decimal n :=
    trimBlanks_of_valueFits (valueFits_decimal (hn.trans_lt (by decide)))
  have hparse : offTParse (decimal n) = some n :=
    (offTParse_eq_some_iff _ _).mpr ⟨decimal_ne_nil n, fun c hc => isDigit_of_mem_decimal hc,
      decimalValue_decimal n, hn⟩
  rw [HttpField.lengthValid, hf, htrim, hparse]
  rfl

/-- The Content-Length that the request layer adds is tracked. -/
theorem addServerFields_framedOnce_iff (h : Tracked r)
    (hn : ∀ n, r.contentLengthN = some n → n ≤ offTMax) :
    FramedOnce (sentFields ctx (addServerFields ctx r)) ((addServerFields ctx r).chunks ctx) ↔
      shown codingName r.fields = [] ∧ ∀ f ∈ shown lengthName r.fields, f.lengthValid = true := by
  obtain ⟨s, hsame, hcases⟩ := addServerFields_cases ctx r
  obtain ⟨hunset, hs⟩ := h.of_keepsLength s hsame.fields.toKeepsLength hsame.slot
  rcases hcases with ⟨hsend, -⟩ | ⟨n, hrn, hu, hsend⟩
  · rw [hsend, sentFields_framedOnce_iff hs, hsame.fields.coding, hsame.fields.length]
  have hnone : shown lengthName s.fields = [] := hs.unset hu
  have hnil : shown lengthName r.fields = [] := hsame.fields.length.symm.trans hnone
  have hname : strcasestrEq lengthName lengthName = true := by decide
  have hat : (s.add lengthName (decimal n)).fields[s.fields.length]? =
      some { name := lengthName, value := decimal n, hash := 0 } := by
    simp [Response.add]
  have hone : shown lengthName (s.add lengthName (decimal n)).fields =
      [{ name := lengthName, value := decimal n, hash := 0 }] := by
    rw [Response.add, shown_append, hnone, nil_append]
    exact shown_singleton rfl hname
  have hcoding : shown codingName (s.add lengthName (decimal n)).fields =
      shown codingName r.fields := by
    rw [Response.add, shown_append, hsame.fields.coding,
      shown_singleton_of_ne (lengthName_ne_codingName hname), append_nil]
  have htracked : Tracked { s.add lengthName (decimal n) with
      contentLength := .stored s.fields.length } := by
    refine ⟨fun hslot => ?_, fun hu' => ?_, fun _ => ⟨_, hone⟩⟩
    · cases hslot
      exact ⟨_, hat, hname⟩
    · rw [Response.lengthUnset] at hu'
      dsimp only at hu'
      rw [hat] at hu'
      cases hu'
  have hvalid : HttpField.lengthValid { name := lengthName, value := decimal n, hash := 0 } :=
    lengthValid_decimal (hn n hrn) rfl
  rw [hsend, sentFields_framedOnce_iff htracked]
  dsimp only
  rw [hone, hcoding, hnil]
  simp [hvalid]

/-- **The header that is sent** for a response that tracks its Content-Length,
when no configured field is one that frames the body. -/
theorem requestHeaderSend_framedOnce_iff
    (hconf : ∀ key ∈ ctx.setHeaders, isFramingName key.1 = false) (h : Tracked r)
    (hn : ∀ n, r.contentLengthN = some n → n ≤ offTMax) :
    FramedOnce (sentFields ctx (requestHeaderSend ctx r)) ((requestHeaderSend ctx r).chunks ctx) ↔
      framingForbidden ctx r.status = true ∨ (shown codingName r.fields = [] ∧
        ∀ f ∈ shown lengthName r.fields, f.lengthValid = true) := by
  have hsame := editedResponse_sameFraming (r := r) hconf
  obtain ⟨hunset, hs⟩ := h.of_keepsLength _ hsame.fields.toKeepsLength hsame.slot
  rw [requestHeaderSend_eq]
  cases hforbidden : framingForbidden ctx r.status with
  | true =>
    rw [← hsame.status] at hforbidden
    obtain ⟨hlength, hcoding, hnone, htracked⟩ := dropFraming_forbidden hs hforbidden
    rw [addServerFields_framedOnce_iff htracked (by simp [hnone]), hlength, hcoding]
    simp
  | false => ?_
  have hsend : dropFraming ctx (editedResponse ctx r) = editedResponse ctx r := by
    rw [dropFraming, hsame.status, if_neg (by simp [hforbidden])]
  rw [hsend, addServerFields_framedOnce_iff hs (by rw [hsame.number]; exact hn),
    hsame.fields.coding, hsame.fields.length]
  simp

/-! ### Responses of applications and peers -/

/-- Where a response comes from, with its status and its fields; a response of
an application may be coded. -/
inductive ResponseSource where
  | application (status : HttpStatus) (fields : List HttpField) (negotiation : Negotiation)
  | peer (status : HttpStatus) (fields : List HttpField)

def httpErrorLen : ℕ :=
  (str "<!DOCTYPE html><title>Error %03d</title><p>Error %03d.\r\n").length - 2

def requestError (status : HttpStatus) (r : Response) : Response :=
  { r with
    status := status
    fields := [{ name := str "Content-Type", value := str "text/html", hash := 0 }]
    date := false
    contentLength := .none
    contentLengthN := some httpErrorLen }

/-- The response whose header is sent: that of the source, or an error. -/
def ResponseSource.response (head : Bool) : ResponseSource → Response
  | .application status fields negotiation =>
    match responseHeaderParse {} fields with
    | .error error => requestError error {}
    | .ok r =>
      let r := applyNegotiation negotiation { r with status := status }
      if negotiation = .notAcceptable then requestError .notAcceptable r else r
  | .peer status fields =>
    let p := peerFieldsProcess status fields
    match peerHeaderReadDone head p with
    | .error error => requestError error (proxyHeaderRead p)
    | .ok _ => proxyHeaderRead p

def ResponseSource.sent (ctx : SendContext) (src : ResponseSource) : Response :=
  requestHeaderSend ctx (src.response ctx.head)

/-- The fields have the form that their senders give them: an application
library computes the hash of a name, the parser leaves the fields of a peer. -/
def ResponseSource.WellFormed : ResponseSource → Prop
  | .application _ fields _ =>
    ∀ f ∈ fields, strcasestrEq f.name lengthName = true → f.WellHashed
  | .peer _ fields => ∀ f ∈ fields, FieldFits false f

def badStatus (f : HttpField) : Bool :=
  !f.skip && lookupField responseFields f == some .status &&
    !(decide (f.value.length ≥ 3) &&
      ((intParse (f.value.take 3)).any fun status => 100 ≤ status && status ≤ 999))

/-- **The responses that are framed in one way.**  An application's own
Transfer-Encoding is sent to the client, and so is a Content-Length of a peer
that is no number; unless the status forbids framing fields or an error
response takes the place. -/
def ResponseSource.Framable (ctx : SendContext) : ResponseSource → Prop
  | .application status fields negotiation =>
    fields.any badStatus = true ∨ negotiation = .notAcceptable ∨
      framingForbidden ctx status = true ∨ shown codingName fields = []
  | .peer status fields =>
    framingForbidden ctx status = true ∨
      ∀ v, fieldValues lengthName fields = [v] → (offTParse v).isSome = true ∨
        (fieldValues codingName fields ≠ [] ∧ requestIsBodylessFinal ctx.head status = false)

theorem requestError_framedOnce
    (hconf : ∀ key ∈ ctx.setHeaders, isFramingName key.1 = false) (status : HttpStatus)
    (r : Response) : FramedOnce (sentFields ctx (requestHeaderSend ctx (requestError status r)))
      ((requestHeaderSend ctx (requestError status r)).chunks ctx) := by
  have hnil : ∀ name, name = lengthName ∨ name = codingName →
      shown name (requestError status r).fields = [] := by
    rintro name (rfl | rfl) <;> exact shown_singleton_of_ne (by decide)
  refine (requestHeaderSend_framedOnce_iff hconf ?_ ?_).mpr (.inr ⟨hnil _ (.inr rfl), ?_⟩)
  · exact ⟨fun hs => (by cases hs), fun _ => hnil _ (.inl rfl), fun hu => (by cases hu)⟩
  · intro n hn
    cases hn
    decide
  · rw [hnil _ (.inl rfl)]
    exact fun f hf => (by cases hf)

/-- A Status field is the only one that can fail. -/
theorem fieldProcess_error_iff (r : Response) {f : HttpField} (hskip : f.skip = false) :
    (∃ error, fieldProcess responseFields responseHandler r f = .error error) ↔
      badStatus f = true := by
  rw [fieldProcess, badStatus, hskip]
  cases hlookup : lookupField responseFields f with
  | none => simp
  | some handler => ?_
  cases handler with
  | status =>
    dsimp only [responseHandler, responseStatus]
    by_cases hlen : f.value.length ≥ 3
    · rw [if_pos hlen]
      cases hparse : intParse (f.value.take 3) with
      | none => simp
      | some status => ?_
      by_cases hrange : status ≥ 100 ∧ status ≤ 999
      · simp [hrange, hlen]
      simp [hrange, hlen]
      omega
    rw [if_neg hlen]
    simp [hlen]
  | _ => simp [responseHandler]

/-- The parse of an application's fields fails at a bad Status. -/
theorem responseHeaderParse_error_iff (fields : List HttpField) (r : Response) :
    (∃ error, responseHeaderParse r fields = .error error) ↔ fields.any badStatus = true := by
  induction fields generalizing r with
  | nil => simp [responseHeaderParse]
  | cons uf fields ih => ?_
  rw [any_cons, responseHeaderParse]
  by_cases hskip : uf.skip = true
  · have hok : badStatus uf = false := by simp [badStatus, hskip]
    rw [if_pos hskip, ih, hok, Bool.false_or]
  rw [if_neg hskip]
  rw [Bool.not_eq_true] at hskip
  have herror : (∃ error, fieldProcess responseFields responseHandler r
      { uf with hopbyhop := false } = .error error) ↔ badStatus uf = true :=
    fieldProcess_error_iff r (f := { uf with hopbyhop := false }) hskip
  cases hf : fieldProcess responseFields responseHandler r { uf with hopbyhop := false } with
  | error error =>
    rw [herror.mp ⟨error, hf⟩]
    simp
  | ok x => ?_
  have hok : badStatus uf = false := by
    by_contra hbad
    rw [Bool.not_eq_false] at hbad
    obtain ⟨error, he⟩ := herror.mpr hbad
    rw [hf] at he
    cases he
  rw [hok, Bool.false_or]
  exact ih _

/-- The choice of a coding keeps the response framed as it was, but for a
Content-Length that no longer holds. -/
theorem applyNegotiation_framing (h : Tracked r)
    (hvalid : ∀ f ∈ shown lengthName r.fields, f.lengthValid = true) (negotiation : Negotiation) :
    Tracked (applyNegotiation negotiation r) ∧
      (∀ f ∈ shown lengthName (applyNegotiation negotiation r).fields, f.lengthValid = true) ∧
      shown codingName (applyNegotiation negotiation r).fields = shown codingName r.fields ∧
      (applyNegotiation negotiation r).status = r.status ∧
      ∀ n, (applyNegotiation negotiation r).contentLengthN = some n →
        r.contentLengthN = some n := by
  have hvary : ∀ vary, SameFraming r (mergeVary { r with varyAcceptEncoding := vary }) := by
    intro vary
    have hsame := mergeVary_sameFraming { r with varyAcceptEncoding := vary }
    exact ⟨hsame.fields, hsame.slot, hsame.number, hsame.status⟩
  cases negotiation with
  | none => exact ⟨h, hvalid, rfl, rfl, fun n hn => hn⟩
  | notAcceptable =>
    exact ⟨⟨h.slot, h.unset, h.set⟩, hvalid, rfl, rfl, fun n hn => hn⟩
  | identity =>
    have hsame := hvary true
    rw [applyNegotiation, hsame.fields.length, hsame.fields.coding, hsame.number]
    exact ⟨(h.of_keepsLength _ hsame.fields.toKeepsLength hsame.slot).2, hvalid, rfl, hsame.status,
      fun n hn => hn⟩
  | coded token => ?_
  have hsame := hvary true
  have hadd := add_keepsFraming
    (show isFramingName (str "Content-Encoding") = false by decide) token
    (mergeVary { r with varyAcceptEncoding := true })
  have hweak := weakenEtag_keepsFraming
    (compSetHeader token (mergeVary { r with varyAcceptEncoding := true }))
  have hnil : shown lengthName (applyNegotiation (.coded token) r).fields = [] :=
    hweak.length.trans (shown_skipFields lengthName _)
  refine ⟨⟨fun hs => (by cases hs), fun _ => hnil, fun hu => (by cases hu)⟩, ?_, ?_, ?_, ?_⟩
  · rw [hnil]
    exact fun f hf => (by cases hf)
  · calc shown codingName (applyNegotiation (.coded token) r).fields
        = shown codingName (compSetHeader token
            (mergeVary { r with varyAcceptEncoding := true })).fields := hweak.coding
      _ = shown codingName ((mergeVary { r with varyAcceptEncoding := true }).add
            (str "Content-Encoding") token).fields := shown_skipFields_of_ne (by decide) _
      _ = shown codingName r.fields := hadd.coding.trans hsame.fields.coding
  · exact hsame.status
  · exact fun n hn => (by cases hn)

theorem application_framedOnce_iff (hconf : ∀ key ∈ ctx.setHeaders, isFramingName key.1 = false)
    (status : HttpStatus)
    (hhash : ∀ f ∈ fields, strcasestrEq f.name lengthName = true → f.WellHashed)
    (negotiation : Negotiation) :
    FramedOnce (sentFields ctx ((ResponseSource.application status fields negotiation).sent ctx))
        (((ResponseSource.application status fields negotiation).sent ctx).chunks ctx) ↔
      (ResponseSource.application status fields negotiation).Framable ctx := by
  have herror := responseHeaderParse_error_iff fields {}
  rw [ResponseSource.Framable, ResponseSource.sent, ResponseSource.response]
  cases hparse : responseHeaderParse {} fields with
  | error error =>
    exact ⟨fun _ => .inl (herror.mp ⟨error, hparse⟩),
      fun _ => requestError_framedOnce hconf error _⟩
  | ok r => ?_
  have happ : AppFields fields r := responseHeaderParse_appFields
    ⟨⟨fun hs => (by cases hs), fun _ => rfl, fun hu => (by cases hu)⟩,
      fun skip hs => (by cases hs), rfl, fun f hf => (by cases hf), Iff.rfl⟩ hhash hparse
  have hok : ¬ fields.any badStatus = true := by
    intro hbad
    obtain ⟨error, he⟩ := herror.mpr hbad
    rw [hparse] at he
    cases he
  have happ' := happ.withStatus status
  obtain ⟨htracked, hvalid, hcoding, hstatus, hnumber⟩ :=
    applyNegotiation_framing happ'.tracked happ'.valid negotiation
  dsimp only
  by_cases hrefused : negotiation = .notAcceptable
  · rw [if_pos hrefused]
    exact ⟨fun _ => .inr (.inl hrefused), fun _ => requestError_framedOnce hconf _ _⟩
  rw [if_neg hrefused, requestHeaderSend_framedOnce_iff hconf htracked fun n hn => by
    have hnone := hnumber n hn
    rw [happ'.number] at hnone
    cases hnone]
  rw [hstatus, hcoding, happ'.coding]
  simp only [hok, hrefused, Bool.false_eq_true, false_or]
  exact or_congr_right (and_iff_left hvalid)

variable {p : PeerResponse} {values : List Bytes}

/-- A peer's response points to its Content-Length if there is one only. -/
theorem proxyHeaderRead_tracked (h : LengthLines p values) : Tracked (proxyHeaderRead p) := by
  have hfields : shown lengthName (proxyHeaderRead p).fields = shown lengthName p.fields :=
    shown_filter_skip _ _
  have hslot : ∀ i, (proxyHeaderRead p).contentLength ≠ .stored i := by
    intro i hs
    rw [proxyHeaderRead] at hs
    dsimp only at hs
    cases hp : p.contentLength with
    | none | some =>
      rw [hp] at hs
      cases hs
  have hunset : (proxyHeaderRead p).lengthUnset =
      p.contentLength.elim true fun i => (p.fields[i]?.map (·.skip)).getD true := by
    rw [Response.lengthUnset, proxyHeaderRead]
    cases p.contentLength <;> rfl
  refine ⟨fun hs => absurd hs (hslot _), fun hu => ?_, fun hu => ?_⟩
  · rw [hfields]
    cases h with
    | none hp hshown hn => exact hshown
    | many hp hg hname hskip hshown hn => exact hshown
    | one hp hg hname hskip hshown hn => ?_
    rw [hunset, hp, Option.elim_some, hg, Option.map_some, Option.getD_some, hskip] at hu
    cases hu
  · rw [hfields]
    cases h with
    | one hp hg hname hskip hshown hn => exact ⟨_, hshown⟩
    | none hp hshown hn =>
      rw [hunset, hp] at hu
      cases hu
    | many hp hg hname hskip hshown hn => ?_
    rw [hunset, hp, Option.elim_some, hg, Option.map_some, Option.getD_some, hskip] at hu
    cases hu

theorem LengthLines.number_le (h : LengthLines p values) {n : ℕ} (hn : p.contentLengthN = some n) :
    n ≤ offTMax := by
  cases h with
  | none hp hshown hnone =>
    rw [hnone] at hn
    cases hn
  | many hp hg hname hskip hshown hnone =>
    rw [hnone] at hn
    cases hn
  | one hp hg hname hskip hshown hparse => ?_
  rw [hparse] at hn
  exact ((offTParse_eq_some_iff _ _).mp hn).2.2.2

/-- The Content-Length that is left is a number if the single line has one. -/
theorem LengthLines.valid_iff (h : LengthLines p values) (hfits : ∀ v ∈ values, ValueFits v) :
    (∀ f ∈ shown lengthName p.fields, f.lengthValid = true) ↔
      ∀ v, values = [v] → (offTParse v).isSome = true := by
  cases h with
  | none hp hshown hn => simp [hshown]
  | many hp hg hname hskip hshown hn => simp [hshown]
  | one hp hg hname hskip hshown hn => ?_
  rw [hshown]
  simp only [mem_singleton, forall_eq, cons.injEq, and_true, forall_eq']
  rw [HttpField.lengthValid, trimBlanks_of_valueFits (hfits _ mem_cons_self)]

theorem peer_framedOnce_iff (hconf : ∀ key ∈ ctx.setHeaders, isFramingName key.1 = false)
    (status : HttpStatus) (hfits : ∀ f ∈ fields, FieldFits false f) :
    FramedOnce (sentFields ctx ((ResponseSource.peer status fields).sent ctx))
        (((ResponseSource.peer status fields).sent ctx).chunks ctx) ↔
      (ResponseSource.peer status fields).Framable ctx := by
  have hfields := peerFieldsProcess_peerFields status (fun f hf => (hfits f hf).wellHashed)
    fun f hf => by rw [(hfits f hf).eq_ofLine]; rfl
  have hstatus := peerFieldsProcess_status status fields
  have herror := peerHeaderReadDone_error_iff ctx.head (peerFieldsProcess status fields)
  have hcodings := hfields.transferEncoding_eq_none_iff
  have hvalues : ∀ v ∈ fieldValues lengthName fields, ValueFits v := by
    intro v hv
    obtain ⟨f, hf, rfl⟩ := mem_map.mp hv
    exact (hfits f (mem_of_mem_filter hf)).value
  rw [ResponseSource.Framable, ResponseSource.sent, ResponseSource.response]
  cases hdone : peerHeaderReadDone ctx.head (peerFieldsProcess status fields) with
  | error error =>
    obtain ⟨hbody, hte⟩ := herror.mp ⟨error, hdone⟩
    rw [hstatus] at hbody
    refine ⟨fun _ => .inr fun v _ => .inr ⟨fun hnil => ?_, hbody⟩,
      fun _ => requestError_framedOnce hconf error _⟩
    rw [hcodings.mpr hnil] at hte
    simp at hte
  | ok body => ?_
  have htracked := proxyHeaderRead_tracked hfields.lengths
  rw [requestHeaderSend_framedOnce_iff hconf htracked fun n hn => hfields.lengths.number_le hn]
  have hcoding : shown codingName (proxyHeaderRead (peerFieldsProcess status fields)).fields = [] :=
    (shown_filter_skip _ _).trans hfields.coding
  have hlength : shown lengthName (proxyHeaderRead (peerFieldsProcess status fields)).fields =
      shown lengthName (peerFieldsProcess status fields).fields := shown_filter_skip _ _
  have hread : (proxyHeaderRead (peerFieldsProcess status fields)).status = status := hstatus
  rw [hcoding, hlength, hread, hfields.lengths.valid_iff hvalues]
  simp only [true_and]
  refine or_congr_right ⟨fun h v hv => .inl (h v hv), fun h v hv => ?_⟩
  refine (h v hv).elim id fun ⟨hlines, hbody⟩ => ?_
  -- both fields in a response with a body are an error
  exfalso
  have hsome : (peerFieldsProcess status fields).contentLength.isSome = true :=
    hfields.lengths.isSome_iff.mpr (by simp [hv])
  obtain ⟨error, he⟩ := herror.mpr ⟨by rw [hstatus]; exact hbody, by
    cases hte : (peerFieldsProcess status fields).transferEncoding with
    | none => exact absurd (hcodings.mp hte) hlines | unsupported => exact .inl rfl
    | chunked => exact .inr ⟨rfl, hsome⟩⟩
  rw [hdone] at he
  cases he

end FreeUnit
