/-
The header of a peer's response: the handlers of `nxt_h1p_peer_fields` and the
framing that `nxt_h1p_peer_header_read_done` chooses for the body.

* `transferEncoding_eq_chunked_iff` — the lines of a Transfer-Encoding are read
  as one list;
* `peerHeaderReadDone_codings` — the list `chunked` alone is decoded, every
  other one is a gateway error.
-/
import FreeUnit.ResponseFields

namespace FreeUnit

open List

/-! ### The handlers -/

/-- The handlers of `nxt_h1p_peer_fields`. -/
inductive PeerHandler where
  | skip | transferEncoding | date | contentLength
  deriving DecidableEq, Repr

def h1pPeerFields : List (Bytes × PeerHandler) :=
  [(str "Connection", .skip), (str "Transfer-Encoding", .transferEncoding),
    (str "Server", .skip), (str "Date", .date), (str "Content-Length", .contentLength)]

/-- What the handlers write of `nxt_http_peer_t`, its `nxt_h1proto_t` and the
request.  `contentLength` is the place of the field in `fields`. -/
structure PeerResponse where
  status : HttpStatus
  fields : List HttpField := []
  transferEncoding : TransferEncoding := .none
  date : Bool := false
  contentLength : Option ℕ := none
  contentLengthN : Option ℕ := none
  inconsistent : Bool := false
  deriving DecidableEq, Repr

/-- An element of a Transfer-Encoding list; the flag says that none was seen. -/
def codingElement (st : TransferEncoding × Bool) (element : Bytes) : TransferEncoding × Bool :=
  let coding := trimBlanks element
  if coding = [] then st
  else if st.1 = .none ∧ strcasestrEq coding (str "chunked") then (.chunked, false)
  else (.unsupported, false)

/-- `nxt_h1p_peer_transfer_encoding`: a line, after the state the lines before
it have left. -/
def h1pPeerTransferEncoding (te : TransferEncoding) (value : Bytes) : TransferEncoding :=
  let st := (value.splitOn 0x2C).foldl codingElement (te, true)
  if st.2 then .unsupported else st.1

def proxyContentLength (p : PeerResponse) (f : HttpField) : PeerResponse :=
  match p.contentLength with
  | some i =>
    { p with
      fields := p.fields.modify i (fun g => { g with skip := true }) ++ [{ f with skip := true }]
      contentLengthN := none
      inconsistent := true }
  | none =>
    let p := { p with contentLength := some p.fields.length, fields := p.fields ++ [f] }
    match offTParse f.value with
    | some n => { p with contentLengthN := some n }
    | none => { p with inconsistent := true }

/-- `nxt_http_field_process` for a field of a peer. -/
def peerField (p : PeerResponse) (f : HttpField) : PeerResponse :=
  match lookupField h1pPeerFields f with
  | none => { p with fields := p.fields ++ [f] }
  | some .skip => { p with fields := p.fields ++ [{ f with skip := true }] }
  | some .transferEncoding =>
    { p with
      fields := p.fields ++ [{ f with skip := true }]
      transferEncoding := h1pPeerTransferEncoding p.transferEncoding f.value }
  | some .date => { p with fields := p.fields ++ [f], date := true }
  | some .contentLength => proxyContentLength p f

/-- `nxt_http_fields_process` for the fields of a peer. -/
def peerFieldsProcess (status : HttpStatus) (fields : List HttpField) : PeerResponse :=
  fields.foldl peerField { status := status }

/-! ### The framing of the body -/

def statusNoRepresentation (status : HttpStatus) : Bool :=
  status < 200 || status == 204 || status == 304

/-- `nxt_http_request_is_bodyless_final`, for a request with or without the
method HEAD. -/
def requestIsBodylessFinal (head : Bool) (status : HttpStatus) : Bool :=
  if status < 200 then false
  else if statusNoRepresentation status then true
  else head

/-- What `nxt_h1p_peer_header_read_done` sets for the reading of the body. -/
structure PeerBody where
  chunked : Bool := false
  remainder : ℕ := 0
  closed : Bool := false
  deriving DecidableEq, Repr

/-- `nxt_h1p_peer_header_read_done` for a header that is complete. -/
def peerHeaderReadDone (head : Bool) (p : PeerResponse) : Except HttpStatus PeerBody :=
  let chunked := p.transferEncoding = .chunked
  if requestIsBodylessFinal head p.status then .ok { closed := true }
  else if p.transferEncoding = .unsupported then .error .badGateway
  else if chunked ∧ p.contentLength.isSome then .error .badGateway
  else if chunked then .ok { chunked := true }
  else .ok { remainder := p.contentLengthN.getD 0 }

/-- `nxt_http_proxy_header_read`, without the sending. -/
def proxyHeaderRead (p : PeerResponse) : Response where
  status := p.status
  fields := p.fields.filter fun f => !f.skip
  date := p.date
  contentLength :=
    match p.contentLength with
    | none => .none
    | some i => .peer ((p.fields[i]?.map (·.skip)).getD true)
  contentLengthN := p.contentLengthN
  inconsistent := p.inconsistent

/-! ### What the handlers leave -/

/-- What the Content-Length lines of a peer leave: the place and the number of
a single one; several are skipped. -/
inductive LengthLines (p : PeerResponse) : List Bytes → Prop
  | none : p.contentLength = none → shown lengthName p.fields = [] → p.contentLengthN = none →
      LengthLines p []
  | one {i : ℕ} {g : HttpField} : p.contentLength = some i → p.fields[i]? = some g →
      strcasestrEq g.name lengthName = true → g.skip = false → shown lengthName p.fields = [g] →
      p.contentLengthN = offTParse g.value → LengthLines p [g.value]
  | many {i : ℕ} {g : HttpField} {v w : Bytes} {values : List Bytes} :
      p.contentLength = some i → p.fields[i]? = some g →
      strcasestrEq g.name lengthName = true → g.skip = true → shown lengthName p.fields = [] →
      p.contentLengthN = none → LengthLines p (v :: w :: values)

/-- What holds after the fields `seen`. -/
structure PeerFields (seen : List HttpField) (p : PeerResponse) : Prop where
  lengths : LengthLines p (fieldValues lengthName seen)
  coding : shown codingName p.fields = []
  transferEncoding : p.transferEncoding =
    (fieldValues codingName seen).foldl h1pPeerTransferEncoding .none

theorem h1pPeerFields_nodup : (h1pPeerFields.map fun e => e.1.map lowcase).Nodup := by decide

variable {f : HttpField} {p : PeerResponse}

theorem lookup_h1pPeerFields (hf : f.WellHashed) :
    (lookupField h1pPeerFields f = some .contentLength ↔ strcasestrEq f.name lengthName = true) ∧
    (lookupField h1pPeerFields f = some .transferEncoding ↔
      strcasestrEq f.name codingName = true) := by
  rw [lookupField_eq_some_iff h1pPeerFields_nodup hf, lookupField_eq_some_iff h1pPeerFields_nodup hf]
  simp [h1pPeerFields, lengthName, codingName]

theorem fieldValues_snoc_of_ne {name : Bytes} (seen : List HttpField)
    (h : strcasestrEq f.name name = false) :
    fieldValues name (seen ++ [f]) = fieldValues name seen := by
  simp [fieldValues, h]

theorem fieldValues_snoc {name : Bytes} (seen : List HttpField)
    (h : strcasestrEq f.name name = true) :
    fieldValues name (seen ++ [f]) = fieldValues name seen ++ [f.value] := by
  simp [fieldValues, h]

section Step

variable {p : PeerResponse} {values : List Bytes}

theorem LengthLines.store (h : LengthLines p values)
    (hf : strcasestrEq f.name lengthName = false) (te : TransferEncoding) (date : Bool) :
    LengthLines { p with fields := p.fields ++ [f], transferEncoding := te, date := date }
      values := by
  have hkeeps : KeepsLength p.fields (p.fields ++ [f]) := .append hf
  cases h with
  | none hslot hshown hn => exact .none hslot (hkeeps.length.trans hshown) hn
  | one hslot hg hname hskip hshown hn =>
    exact .one hslot (hkeeps.kept hg hname) hname hskip (hkeeps.length.trans hshown) hn
  | many hslot hg hname hskip hshown hn =>
    exact .many hslot (hkeeps.kept hg hname) hname hskip (hkeeps.length.trans hshown) hn

/-- The second Content-Length skips the first one and itself. -/
theorem shown_length_duplicate {fields : List HttpField} {i : ℕ} {g : HttpField}
    (hg : fields[i]? = some g) (hname : strcasestrEq g.name lengthName = true)
    (hshown : (shown lengthName fields).length = if g.skip then 0 else 1) :
    shown lengthName (fields.modify i (fun g => { g with skip := true }) ++
      [{ f with skip := true }]) = [] := by
  have hlen := length_shown_modify hname hg
  rw [hshown] at hlen
  have hnil : shown lengthName (fields.modify i fun g => { g with skip := true }) = [] :=
    eq_nil_of_length_eq_zero (by omega)
  rw [shown_append, hnil]
  simp [shown]

theorem LengthLines.contentLength (h : LengthLines p values)
    (hskip : f.skip = false) (hf : strcasestrEq f.name lengthName = true) :
    LengthLines (proxyContentLength p f) (values ++ [f.value]) := by
  -- what a field after the first one leaves
  have hmore : ∀ {i : ℕ} {g : HttpField} {v w : Bytes} {rest : List Bytes},
      p.contentLength = some i → p.fields[i]? = some g →
      strcasestrEq g.name lengthName = true →
      (shown lengthName p.fields).length = (if g.skip then 0 else 1) →
      LengthLines (proxyContentLength p f) (v :: w :: rest) := by
    intro i g v w rest hslot hg hname hshown
    have hat : (p.fields.modify i (fun g => { g with skip := true }) ++
        [{ f with skip := true }])[i]? = some { g with skip := true } := by
      rw [getElem?_append_left (by
        rw [length_modify]
        exact (List.getElem?_eq_some_iff.mp hg).1), List.getElem?_modify_eq, hg]
      rfl
    rw [proxyContentLength, hslot]
    exact .many rfl hat hname rfl (shown_length_duplicate hg hname hshown) rfl
  cases h with
  | none hslot hshown hn =>
    have hat : (p.fields ++ [f])[p.fields.length]? = some f := by simp
    have hone : shown lengthName (p.fields ++ [f]) = [f] := by
      rw [shown_append, hshown, shown_singleton hskip hf, nil_append]
    rw [proxyContentLength, hslot, nil_append]
    dsimp only
    cases hparse : offTParse f.value with
    | none => exact .one rfl hat hf hskip hone (hn.trans hparse.symm)
    | some n => exact .one rfl hat hf hskip hone hparse.symm
  | one hslot hg hname hgskip hshown hn =>
    exact hmore hslot hg hname (by rw [hshown, hgskip]; rfl)
  | many hslot hg hname hgskip hshown hn =>
    exact hmore hslot hg hname (by rw [hshown, hgskip]; rfl)

end Step

variable {seen : List HttpField}

/-- A field that is neither a Content-Length nor a Transfer-Encoding. -/
theorem PeerFields.other (h : PeerFields seen p) (hlength : strcasestrEq f.name lengthName = false)
    (hcoding : strcasestrEq f.name codingName = false) (skip date : Bool) : PeerFields (seen ++ [f])
      { p with fields := p.fields ++ [{ f with skip := skip }], date := date } := by
  refine ⟨?_, ?_, ?_⟩
  · rw [fieldValues_snoc_of_ne seen hlength]
    exact h.lengths.store (f := { f with skip := skip }) hlength _ date
  · dsimp only
    rw [shown_append, h.coding, nil_append]
    exact shown_singleton_of_ne hcoding
  · rw [fieldValues_snoc_of_ne seen hcoding]
    exact h.transferEncoding

theorem proxyContentLength_coding {values : List Bytes} (h : LengthLines p values)
    (hf : strcasestrEq f.name lengthName = true) :
    shown codingName (proxyContentLength p f).fields = shown codingName p.fields ∧
      (proxyContentLength p f).transferEncoding = p.transferEncoding := by
  have hlast : ∀ skip, shown codingName [{ f with skip := skip }] = [] := fun skip =>
    shown_singleton_of_ne (lengthName_ne_codingName hf)
  have hdup : ∀ {i : ℕ} {g : HttpField}, p.contentLength = some i → p.fields[i]? = some g →
      strcasestrEq g.name lengthName = true →
      shown codingName (proxyContentLength p f).fields = shown codingName p.fields ∧
        (proxyContentLength p f).transferEncoding = p.transferEncoding := by
    intro i g hslot hg hname
    rw [proxyContentLength, hslot]
    refine ⟨?_, rfl⟩
    dsimp only
    rw [shown_append, hlast, append_nil, shown_modify_of_ne (lengthName_ne_codingName hname) hg]
  cases h with
  | none hslot hshown hn =>
    have hfields : shown codingName (p.fields ++ [f]) = shown codingName p.fields := by
      rw [shown_append, hlast f.skip, append_nil]
    rw [proxyContentLength, hslot]
    dsimp only
    cases offTParse f.value with
    | none | some => exact ⟨hfields, rfl⟩
  | one hslot hg hname hgskip hshown hn => exact hdup hslot hg hname
  | many hslot hg hname hgskip hshown hn => exact hdup hslot hg hname

theorem PeerFields.step (h : PeerFields seen p) (hf : f.WellHashed) (hskip : f.skip = false) :
    PeerFields (seen ++ [f]) (peerField p f) := by
  obtain ⟨hlookupLength, hlookupCoding⟩ := lookup_h1pPeerFields hf
  rw [peerField]
  by_cases hlength : strcasestrEq f.name lengthName = true
  · have hcoding := lengthName_ne_codingName hlength
    obtain ⟨hshown, hte⟩ := proxyContentLength_coding h.lengths hlength
    rw [hlookupLength.mpr hlength]
    refine ⟨?_, hshown.trans h.coding, ?_⟩
    · rw [fieldValues_snoc seen hlength]
      exact h.lengths.contentLength hskip hlength
    · rw [fieldValues_snoc_of_ne seen hcoding]
      exact hte.trans h.transferEncoding
  by_cases hcoding : strcasestrEq f.name codingName = true
  · rw [hlookupCoding.mpr hcoding]
    rw [Bool.not_eq_true] at hlength
    refine ⟨?_, ?_, ?_⟩
    · rw [fieldValues_snoc_of_ne seen hlength]
      exact h.lengths.store (f := { f with skip := true }) hlength _ _
    · dsimp only
      rw [shown_append, h.coding]
      simp [shown]
    · rw [fieldValues_snoc seen hcoding, foldl_append, ← h.transferEncoding]
      rfl
  have hother := h.other (by simpa using hlength) (by simpa using hcoding)
  cases hlookup : lookupField h1pPeerFields f with
  | none => exact hother f.skip p.date
  | some handler => ?_
  cases handler with
  | skip => exact hother true p.date
  | date => exact hother f.skip true
  | contentLength => exact absurd (hlookupLength.mp hlookup) hlength
  | transferEncoding => exact absurd (hlookupCoding.mp hlookup) hcoding

/-- **What the fields of a peer leave** of the lines that frame its body. -/
theorem peerFieldsProcess_peerFields (status : HttpStatus) {fields : List HttpField}
    (hhash : ∀ f ∈ fields, f.WellHashed) (hskip : ∀ f ∈ fields, f.skip = false) :
    PeerFields fields (peerFieldsProcess status fields) := by
  suffices ∀ (rest seen : List HttpField) (p : PeerResponse), PeerFields seen p →
      (∀ f ∈ rest, f.WellHashed) → (∀ f ∈ rest, f.skip = false) →
      PeerFields (seen ++ rest) (rest.foldl peerField p) from
    this fields [] _ ⟨.none rfl rfl rfl, rfl, rfl⟩ hhash hskip
  intro rest
  induction rest with
  | nil =>
    intro seen p h _ _
    rwa [append_nil]
  | cons f rest ih => ?_
  intro seen p h hhash hskip
  rw [forall_mem_cons] at hhash hskip
  rw [append_cons, foldl_cons]
  exact ih _ _ (h.step hhash.1 hskip.1) hhash.2 hskip.2

theorem peerFieldsProcess_status (status : HttpStatus) (fields : List HttpField) :
    (peerFieldsProcess status fields).status = status := by
  have hstep : ∀ (p : PeerResponse) (f : HttpField), (peerField p f).status = p.status := by
    intro p f
    rw [peerField]
    cases lookupField h1pPeerFields f with
    | none => rfl
    | some handler => ?_
    cases handler with
    | contentLength =>
      dsimp only [proxyContentLength]
      cases p.contentLength with
      | some i => rfl
      | none => ?_
      dsimp only
      cases offTParse f.value <;> rfl
    | _ => rfl
  suffices ∀ (rest : List HttpField) (p : PeerResponse),
      (rest.foldl peerField p).status = p.status from this fields _
  intro rest
  induction rest with
  | nil => exact fun p => rfl
  | cons f rest ih => exact fun p => (ih _).trans (hstep p f)

/-! ### The list of codings -/

def addCoding (te : TransferEncoding) (coding : Bytes) : TransferEncoding :=
  if te = .none ∧ coding = str "chunked" then .chunked else .unsupported

theorem foldl_addCoding_unsupported (cs : List Bytes) :
    cs.foldl addCoding .unsupported = .unsupported := by
  induction cs with
  | nil => rfl
  | cons c cs ih =>
    rw [foldl_cons, addCoding, if_neg (by simp), ih]

/-- The states stand for: no coding, `chunked` alone, any other list. -/
theorem foldl_addCoding (cs : List Bytes) : cs.foldl addCoding .none =
      if cs = [] then .none else if cs = [str "chunked"] then .chunked else .unsupported := by
  cases cs with
  | nil => rfl
  | cons c cs => ?_
  rw [foldl_cons, if_neg (cons_ne_nil _ _)]
  by_cases hc : c = str "chunked"
  · rw [addCoding, if_pos ⟨rfl, hc⟩]
    cases cs with
    | nil => rw [hc, if_pos rfl, foldl_nil]
    | cons d cs => ?_
    -- a coding behind `chunked`
    rw [foldl_cons, addCoding, if_neg (by simp), foldl_addCoding_unsupported, if_neg (by simp)]
  rw [addCoding, if_neg (fun h => hc h.2), foldl_addCoding_unsupported,
    if_neg (fun h => hc (cons.inj h).1)]

theorem foldl_codingElement (elements : List Bytes) : ∀ (te : TransferEncoding) (empty : Bool),
    elements.foldl codingElement (te, empty) =
      (((elements.map fun c => (trimBlanks c).map lowcase).filter (· ≠ [])).foldl addCoding te,
        empty && decide ((elements.map fun c => (trimBlanks c).map lowcase).filter (· ≠ []) = []))
    := by
  induction elements with
  | nil => simp
  | cons c elements ih => ?_
  intro te empty
  rw [foldl_cons, codingElement, map_cons]
  dsimp only
  by_cases hc : trimBlanks c = []
  · rw [if_pos hc, ih, hc, map_nil, filter_cons_of_neg (by simp)]
  have hkeep : (trimBlanks c).map lowcase ≠ [] := by simpa using hc
  have hchunked : strcasestrEq (trimBlanks c) (str "chunked") = true ↔
      (trimBlanks c).map lowcase = str "chunked" := by
    rw [strcasestrEq, beq_iff_eq, show (str "chunked").map lowcase = str "chunked" by decide]
  rw [if_neg hc, filter_cons_of_pos (by simpa using hkeep), foldl_cons, addCoding]
  by_cases hfirst : te = .none ∧ (trimBlanks c).map lowcase = str "chunked"
  · rw [if_pos hfirst, if_pos ⟨hfirst.1, hchunked.mpr hfirst.2⟩, ih]
    simp
  rw [if_neg hfirst, if_neg fun h => hfirst ⟨h.1, hchunked.mp h.2⟩, ih]
  simp

theorem h1pPeerTransferEncoding_eq (te : TransferEncoding) {value : Bytes}
    (h : codings value ≠ []) :
    h1pPeerTransferEncoding te value = (codings value).foldl addCoding te := by
  rw [h1pPeerTransferEncoding, foldl_codingElement]
  dsimp only
  rw [codings] at h ⊢
  rw [Bool.true_and, if_neg (by simpa using h)]

/-- A line leaves a coding, if only an unsupported one. -/
theorem h1pPeerTransferEncoding_ne_none (te : TransferEncoding) (value : Bytes) :
    h1pPeerTransferEncoding te value ≠ .none := by
  have hadd : ∀ te c, addCoding te c ≠ .none := by
    intro te c
    rw [addCoding]
    split_ifs
    · exact fun h => (by cases h)
    · exact fun h => (by cases h)
  by_cases hc : codings value = []
  · rw [h1pPeerTransferEncoding, foldl_codingElement]
    rw [codings] at hc
    dsimp only
    rw [Bool.true_and, if_pos (by simpa using hc)]
    exact fun h => (by cases h)
  rw [h1pPeerTransferEncoding_eq te hc, ← dropLast_append_getLast hc, foldl_append,
    foldl_cons, foldl_nil]
  exact hadd _ _

theorem PeerFields.transferEncoding_eq_none_iff (h : PeerFields seen p) :
    p.transferEncoding = .none ↔ fieldValues codingName seen = [] := by
  rw [h.transferEncoding]
  constructor
  · intro hnone
    by_contra hne
    rw [← dropLast_append_getLast hne, foldl_append, foldl_cons, foldl_nil] at hnone
    exact h1pPeerTransferEncoding_ne_none _ _ hnone
  · intro hnil
    rw [hnil, foldl_nil]

/-- **Several lines are one list.** -/
theorem foldl_h1pPeerTransferEncoding (values : List Bytes) (te : TransferEncoding)
    (h : ∀ v ∈ values, codings v ≠ []) :
    values.foldl h1pPeerTransferEncoding te = (values.flatMap codings).foldl addCoding te := by
  induction values generalizing te with
  | nil => rfl
  | cons v values ih => ?_
  rw [forall_mem_cons] at h
  rw [foldl_cons, flatMap_cons, foldl_append, h1pPeerTransferEncoding_eq te h.1, ih _ h.2]

theorem LengthLines.isSome_iff {values : List Bytes} (h : LengthLines p values) :
    p.contentLength.isSome = true ↔ values ≠ [] := by
  cases h with
  | none hslot hshown hn => simp [hslot]
  | one hslot hg hname hskip hshown hn => simp [hslot]
  | many hslot hg hname hskip hshown hn => simp [hslot]

/-- When the framing of a peer's response is an error. -/
theorem peerHeaderReadDone_error_iff (head : Bool) (p : PeerResponse) :
    (∃ error, peerHeaderReadDone head p = .error error) ↔
      requestIsBodylessFinal head p.status = false ∧ (p.transferEncoding = .unsupported ∨
          (p.transferEncoding = .chunked ∧ p.contentLength.isSome = true)) := by
  rw [peerHeaderReadDone]
  cases requestIsBodylessFinal head p.status with
  | true => simp
  | false => ?_
  cases p.transferEncoding with
  | none | unsupported => simp
  | chunked => cases p.contentLength <;> simp

/-- **The codings of a peer's body.**  A response that can have a body is
decoded as chunked exactly when its Transfer-Encoding lines list `chunked` and
nothing else, and no Content-Length comes with them; any other list, and any
list next to a Content-Length, is a gateway error. -/
theorem peerHeaderReadDone_codings (head : Bool) (status : HttpStatus) (fields : List HttpField)
    (hhash : ∀ f ∈ fields, f.WellHashed) (hskip : ∀ f ∈ fields, f.skip = false)
    (hlines : fieldValues codingName fields ≠ [])
    (hcodings : ∀ v ∈ fieldValues codingName fields, codings v ≠ [])
    (hbody : requestIsBodylessFinal head status = false) :
    peerHeaderReadDone head (peerFieldsProcess status fields) =
      if (fieldValues codingName fields).flatMap codings = [str "chunked"] ∧
          fieldValues lengthName fields = [] then .ok { chunked := true }
      else .error .badGateway := by
  have hfields := peerFieldsProcess_peerFields status hhash hskip
  have hte := hfields.transferEncoding
  rw [foldl_h1pPeerTransferEncoding _ _ hcodings, foldl_addCoding] at hte
  -- the lines are there, so the list is not empty
  have hne : (fieldValues codingName fields).flatMap codings ≠ [] := by
    obtain ⟨v, hv⟩ := exists_mem_of_ne_nil _ hlines
    intro hnil
    exact hcodings v hv (flatMap_eq_nil_iff.mp hnil v hv)
  rw [if_neg hne] at hte
  have hlength := hfields.lengths.isSome_iff
  rw [peerHeaderReadDone, peerFieldsProcess_status, if_neg (by simp [hbody])]
  by_cases hone : (fieldValues codingName fields).flatMap codings = [str "chunked"]
  · rw [if_pos hone] at hte
    rw [hte, if_neg (by simp)]
    by_cases hnone : fieldValues lengthName fields = []
    · rw [if_neg fun h => hlength.mp h.2 hnone, if_pos rfl, if_pos ⟨hone, hnone⟩]
    · rw [if_pos ⟨rfl, hlength.mpr hnone⟩, if_neg fun h => hnone h.2]
  · rw [if_neg hone] at hte
    rw [if_pos hte, if_neg fun h => hone h.1]

/-- In another letter case and with an empty element. -/
theorem peerHeaderReadDone_letterCase :
    peerHeaderReadDone false (peerFieldsProcess 200
        [.ofLine (str "transfer-encoding") (str "chunKed,")]) = .ok { chunked := true } := by
  refine (peerHeaderReadDone_codings false 200 _ ?_ ?_ ?_ ?_ ?_).trans (if_pos ?_)
  · intro f hf
    rw [mem_singleton.mp hf]
    exact HttpField.wellHashed_ofLine _ _
  · decide
  · decide
  · decide
  · rfl
  · decide

/-- A response without a body is complete whatever its codings are, and a
Content-Length next to `chunked` is an error. -/
theorem peerHeaderReadDone_bodyless :
    peerHeaderReadDone false (peerFieldsProcess 204
        [.ofLine codingName (str "gzip")]) = .ok { closed := true } ∧
      peerHeaderReadDone false (peerFieldsProcess 200
        [.ofLine codingName (str "chunked"), .ofLine lengthName (str "5")]) =
          .error .badGateway := by
  decide +kernel

end FreeUnit
