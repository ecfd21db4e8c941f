/-
The store of response fields, and the fields an application sends
(`nxt_router_response_header_parse` with the handlers of `nxt_response_fields`).

The store keeps fields that are not sent any more, marked as skipped; the
response points to the Content-Length field that frames its body.

* `shown` — the fields of a name that are still to be sent.
-/
import FreeUnit.RequestFraming

namespace FreeUnit

open List Option

def HttpStatus.notAcceptable : HttpStatus := 406
def HttpStatus.badGateway : HttpStatus := 502
def HttpStatus.serviceUnavailable : HttpStatus := 503

/-! ### The store -/

def shown (name : Bytes) (fields : List HttpField) : List HttpField :=
  fields.filter fun f => !f.skip && strcasestrEq f.name name

def modifyShown (name : Bytes) (g : HttpField → HttpField) : List HttpField → List HttpField
  | [] => []
  | f :: fields =>
    if !f.skip && strcasestrEq f.name name then g f :: fields
    else f :: modifyShown name g fields

def skipFields (name : Bytes) (fields : List HttpField) : List HttpField :=
  fields.map fun f => if strcasestrEq f.name name then { f with skip := true } else f

/-- What `r->resp.content_length` points to: a field of the response, or a
field of the peer's header, of which the response has a copy. -/
inductive LengthSlot where
  | none
  | stored (i : ℕ)
  | peer (skip : Bool)
  deriving DecidableEq, Repr

/-- The response of `nxt_http_request_t`.  A length of -1 is `none`; the date
is only tested for being there, and the compressor for one being applied. -/
structure Response where
  status : HttpStatus := 0
  fields : List HttpField := []
  date : Bool := false
  contentLength : LengthSlot := .none
  contentLengthN : Option ℕ := none
  varyAcceptEncoding : Bool := false
  coded : Bool := false
  inconsistent : Bool := false
  deriving DecidableEq, Repr

/-- The test `content_length == NULL || content_length->skip`. -/
def Response.lengthUnset (r : Response) : Bool :=
  match r.contentLength with
  | .none => true
  | .stored i => (r.fields[i]?.map (·.skip)).getD true
  | .peer skip => skip

/-- `nxt_http_resp_field_zero_add` and the setting of the name and the value. -/
def Response.add (r : Response) (name value : Bytes) : Response :=
  { r with fields := r.fields ++ [{ name := name, value := value, hash := 0 }] }

/-! ### The fields that frame the body -/

def lengthName : Bytes := str "Content-Length"
def codingName : Bytes := str "Transfer-Encoding"

def HttpField.lengthValid (f : HttpField) : Bool := (offTParse (trimBlanks f.value)).isSome

theorem shown_append (name : Bytes) (l m : List HttpField) :
    shown name (l ++ m) = shown name l ++ shown name m := filter_append l m

variable {name : Bytes} {f : HttpField}

theorem shown_singleton_of_ne (h : strcasestrEq f.name name = false) : shown name [f] = [] := by
  simp [shown, h]

theorem shown_singleton (hskip : f.skip = false)
    (h : strcasestrEq f.name name = true) : shown name [f] = [f] := by
  simp [shown, hskip, h]

theorem shown_skipFields (name : Bytes) (fields : List HttpField) :
    shown name (skipFields name fields) = [] := by
  rw [shown, filter_eq_nil_iff]
  intro f hf
  obtain ⟨g, -, rfl⟩ := mem_map.mp hf
  by_cases hg : strcasestrEq g.name name = true
  · simp [hg]
  · simp [hg]

variable {g : HttpField → HttpField}

/-- An edit of each field by itself that keeps those of the name. -/
theorem shown_map (fields : List HttpField) (hkeep : ∀ f, strcasestrEq f.name name = true → g f = f)
    (hname : ∀ f, (g f).name = f.name) : shown name (fields.map g) = shown name fields := by
  induction fields with
  | nil => rfl
  | cons f fields ih => ?_
  rw [shown, shown] at ih ⊢
  rw [map_cons, filter_cons, filter_cons, ih, hname]
  cases hf : strcasestrEq f.name name with
  | false => simp
  | true => rw [hkeep f hf]

theorem strcasestrEq_trans {a b c : Bytes} (hab : strcasestrEq a b = true)
    (hac : strcasestrEq a c = true) : strcasestrEq b c = true := by
  rw [strcasestrEq, beq_iff_eq] at hab hac ⊢
  exact hab.symm.trans hac

theorem shown_skipFields_of_ne {other : Bytes} (h : strcasestrEq name other = false)
    (fields : List HttpField) : shown other (skipFields name fields) = shown other fields := by
  refine shown_map fields (fun f hf => if_neg fun hsame => ?_) fun f => ?_
  · rw [strcasestrEq_trans hsame hf] at h
    cases h
  · split_ifs
    · rfl
    · rfl

theorem modify_split {α : Type*} {l : List α} {i : ℕ} {a : α} {f : α → α} (h : l[i]? = some a) :
    ∃ pre post, l.modify i f = pre ++ f a :: post ∧ l = pre ++ a :: post := by
  obtain ⟨hi, rfl⟩ := List.getElem?_eq_some_iff.mp h
  refine ⟨l.take i, l.drop (i + 1), ?_, ?_⟩
  · rw [modify_eq_take_cons_drop hi]
  · rw [← drop_eq_getElem_cons hi, take_append_drop]

theorem length_shown_modify {g : HttpField} (hg : strcasestrEq g.name name = true)
    {fields : List HttpField} {i : ℕ} (h : fields[i]? = some g) :
      (shown name (fields.modify i fun f => { f with skip := true })).length +
        (if g.skip then 0 else 1) = (shown name fields).length := by
  obtain ⟨pre, post, hmodify, rfl⟩ := modify_split h
  rw [hmodify, shown, shown, filter_append, filter_append, length_append, length_append]
  cases hskip : g.skip with
  | false => simp [hg, hskip, Nat.add_assoc]
  | true => simp [hskip]

theorem shown_modify_of_ne {g : HttpField} (hg : strcasestrEq g.name name = false)
    {fields : List HttpField} {i : ℕ} (h : fields[i]? = some g) :
      shown name (fields.modify i fun f => { f with skip := true }) = shown name fields := by
  obtain ⟨pre, post, hmodify, rfl⟩ := modify_split h
  rw [hmodify, shown, shown, filter_append, filter_append]
  simp [hg]

/-- **The response points to the one Content-Length that is shown**, and to
none or a skipped one if none is. -/
structure Tracked (r : Response) : Prop where
  slot : ∀ {i : ℕ}, r.contentLength = .stored i →
    ∃ g, r.fields[i]? = some g ∧ strcasestrEq g.name lengthName = true
  unset : r.lengthUnset = true → shown lengthName r.fields = []
  set : r.lengthUnset = false → ∃ g, shown lengthName r.fields = [g]

/-- An edit that leaves the Content-Length fields alone, and in their places. -/
structure KeepsLength (fields fields' : List HttpField) : Prop where
  length : shown lengthName fields' = shown lengthName fields
  kept : ∀ {i : ℕ} {f : HttpField}, fields[i]? = some f →
    strcasestrEq f.name lengthName = true → fields'[i]? = some f

variable {fields : List HttpField}

theorem KeepsLength.append (hlength : strcasestrEq f.name lengthName = false) :
    KeepsLength fields (fields ++ [f]) := by
  refine ⟨?_, fun h _ => ?_⟩
  · rw [shown_append, shown_singleton_of_ne hlength, append_nil]
  · rw [List.getElem?_append_left (List.getElem?_eq_some_iff.mp h).1, h]

/-- An edit that leaves the Transfer-Encoding fields alone, too. -/
structure KeepsFraming (fields fields' : List HttpField) : Prop extends
    KeepsLength fields fields' where
  coding : shown codingName fields' = shown codingName fields

namespace KeepsFraming

theorem refl (fields : List HttpField) : KeepsFraming fields fields :=
  ⟨⟨rfl, fun h _ => h⟩, rfl⟩

theorem trans {a b c : List HttpField} (hab : KeepsFraming a b) (hbc : KeepsFraming b c) :
    KeepsFraming a c :=
  ⟨⟨hbc.length.trans hab.length, fun h hname => hbc.kept (hab.kept h hname) hname⟩,
    hbc.coding.trans hab.coding⟩

theorem append (hlength : strcasestrEq f.name lengthName = false)
    (hcoding : strcasestrEq f.name codingName = false) : KeepsFraming fields (fields ++ [f]) := by
  refine ⟨.append hlength, ?_⟩
  rw [shown_append, shown_singleton_of_ne hcoding, append_nil]

/-- An edit of each field by itself that keeps the framing ones. -/
theorem map (fields : List HttpField)
    (hkeep : ∀ f, strcasestrEq f.name lengthName = true ∨ strcasestrEq f.name codingName = true → g f = f)
    (hname : ∀ f, (g f).name = f.name) : KeepsFraming fields (fields.map g) := by
  refine ⟨⟨shown_map fields (fun f hf => hkeep f (.inl hf)) hname, ?_⟩,
    shown_map fields (fun f hf => hkeep f (.inr hf)) hname⟩
  intro i f h hf
  rw [getElem?_map, h, map_some, hkeep f (.inl hf)]

theorem modifyShown (fields : List HttpField) (hlength : strcasestrEq name lengthName = false)
    (hcoding : strcasestrEq name codingName = false) (hname : ∀ f, (g f).name = f.name) :
    KeepsFraming fields (modifyShown name g fields) := by
  induction fields with
  | nil => exact refl _
  | cons f fields ih => ?_
  rw [FreeUnit.modifyShown]
  by_cases hf : (!f.skip && strcasestrEq f.name name) = true
  · rw [if_pos hf]
    rw [Bool.and_eq_true] at hf
    -- the edited field is none of the two
    have hother : ∀ other, strcasestrEq name other = false → strcasestrEq f.name other = false := by
      intro other hne
      by_contra htrue
      rw [Bool.not_eq_false] at htrue
      rw [strcasestrEq_trans hf.2 htrue] at hne
      cases hne
    have hl := hother _ hlength
    have hc := hother _ hcoding
    refine ⟨⟨?_, ?_⟩, ?_⟩
    · simp [shown, hname, hl]
    · intro i f' h hf'
      cases i with
      | zero =>
        rw [getElem?_cons_zero, some.injEq] at h
        rw [h, hf'] at hl
        cases hl
      | succ i => exact h
    · simp [shown, hname, hc]
  rw [if_neg hf]
  refine ⟨⟨?_, ?_⟩, ?_⟩
  · have hrest := ih.length
    rw [shown, shown] at hrest ⊢
    rw [filter_cons, filter_cons, hrest]
  · intro i f' h hf'
    cases i with
    | zero => exact h
    | succ i => exact ih.kept h hf'
  · have hrest := ih.coding
    rw [shown, shown] at hrest ⊢
    rw [filter_cons, filter_cons, hrest]

end KeepsFraming

/-- Edits beside Content-Length keep what the response points to. -/
theorem Tracked.of_keepsLength {r : Response} (h : Tracked r) (r' : Response)
    (hfields : KeepsLength r.fields r'.fields) (hslot : r'.contentLength = r.contentLength) :
    r'.lengthUnset = r.lengthUnset ∧ Tracked r' := by
  have hunset : r'.lengthUnset = r.lengthUnset := by
    rw [Response.lengthUnset, Response.lengthUnset, hslot]
    cases hs : r.contentLength with
    | none | peer => rfl
    | stored i => ?_
    obtain ⟨g, hg, hname⟩ := h.slot hs
    dsimp only
    rw [hg, hfields.kept hg hname]
  refine ⟨hunset, ?_, ?_, ?_⟩
  · intro i hs
    rw [hslot] at hs
    obtain ⟨g, hg, hname⟩ := h.slot hs
    exact ⟨g, hfields.kept hg hname, hname⟩
  · intro hu
    rw [hfields.length]
    exact h.unset (hunset.symm.trans hu)
  · intro hu
    rw [hfields.length]
    exact h.set (hunset.symm.trans hu)

/-! ### The fields of an application -/

/-- The handlers of `nxt_response_fields`. -/
inductive ResponseHandler where
  | status | skip | date | contentType | contentLength
  deriving DecidableEq, Repr

def responseFields : List (Bytes × ResponseHandler) :=
  [(str "Status", .status), (str "Server", .skip), (str "Date", .date),
    (str "Connection", .skip), (str "Content-Type", .contentType),
    (str "Content-Length", .contentLength), (str "Upgrade", .skip),
    (str "Sec-WebSocket-Accept", .skip)]

/-- `nxt_http_response_status`.  The status it stores is overwritten with that
of the response message. -/
def responseStatus (r : Response) (f : HttpField) : Except HttpStatus (Response × HttpField) :=
  let f := { f with skip := true }
  if f.value.length ≥ 3 then
    match intParse (f.value.take 3) with
    | none => .error .serviceUnavailable
    | some status =>
      if status ≥ 100 ∧ status ≤ 999 then .ok ({ r with status := status }, f)
      else .error .serviceUnavailable
  else .error .serviceUnavailable

/-- The label `reject` of `nxt_http_response_content_length`. -/
def rejectLength (r : Response) (f : HttpField) : Response × HttpField :=
  ({ r with contentLengthN := none, inconsistent := true }, { f with skip := true })

/-- `nxt_http_response_content_length`, for a field that is about to be stored. -/
def responseContentLength (r : Response) (f : HttpField) : Response × HttpField :=
  match r.contentLength with
  | .stored i =>
    rejectLength { r with
      fields := r.fields.modify i fun g => { g with skip := true }
      contentLength := .none } f
  | .peer _ => rejectLength { r with contentLength := .none } f
  | .none =>
    if r.inconsistent then rejectLength r f
    else if offTParse (trimBlanks f.value) = none then rejectLength r f
    else ({ r with contentLength := .stored r.fields.length }, f)

/-- The handlers.  The type is only read by the choice of a compressor. -/
def responseHandler : ResponseHandler → Response → HttpField →
    Except HttpStatus (Response × HttpField)
  | .status, r, f => responseStatus r f
  | .skip, r, f => .ok (r, { f with skip := true })
  | .date, r, f => .ok ({ r with date := true }, f)
  | .contentType, r, f => .ok (r, f)
  | .contentLength, r, f => .ok (responseContentLength r f)

/-- The loop of `nxt_router_response_header_parse` over the fields of the
message; a field that its handler skips is taken off the store again. -/
def responseHeaderParse : Response → List HttpField → Except HttpStatus Response
  | r, [] => .ok r
  | r, uf :: fields =>
    if uf.skip then responseHeaderParse r fields
    else
      match fieldProcess responseFields responseHandler r { uf with hopbyhop := false } with
      | .error status => .error status
      | .ok (r, f) =>
        responseHeaderParse (if f.skip then r else { r with fields := r.fields ++ [f] }) fields

/-! ### What the fields of an application leave -/

theorem name_of_lookupField {η : Type*} {table : List (Bytes × η)} {h : η}
    (hlookup : lookupField table f = some h) :
    ∃ name, (name, h) ∈ table ∧ strcasestrEq f.name name = true := by
  rw [lookupField, map_eq_some_iff] at hlookup
  obtain ⟨e, he, rfl⟩ := hlookup
  have hkey := find?_some he
  rw [Bool.and_eq_true] at hkey
  exact ⟨e.1, mem_of_find?_eq_some he, hkey.2⟩

/-- No handler of an application's response is for Transfer-Encoding, and one
is for Content-Length. -/
theorem responseFields_names : ∀ e ∈ responseFields, strcasestrEq e.1 codingName = false ∧
      (strcasestrEq e.1 lengthName = true ↔ e.2 = .contentLength) := by
  decide

theorem responseFields_nodup : (responseFields.map fun e => e.1.map lowcase).Nodup := by decide

theorem not_coding_of_lookup {h : ResponseHandler}
    (hlookup : lookupField responseFields f = some h) : strcasestrEq f.name codingName = false := by
  obtain ⟨name, hmem, hname⟩ := name_of_lookupField hlookup
  by_contra htrue
  rw [Bool.not_eq_false] at htrue
  have hne := (responseFields_names _ hmem).1
  rw [strcasestrEq_trans hname htrue] at hne
  cases hne

/-- For a field with the right hash the table finds a Content-Length. -/
theorem lookup_contentLength (hf : strcasestrEq f.name lengthName = true → f.WellHashed) :
    strcasestrEq f.name lengthName = true ↔ lookupField responseFields f = some .contentLength := by
  constructor
  · intro hname
    exact (lookupField_eq_some_iff responseFields_nodup (hf hname) _).mpr
      ⟨lengthName, by decide, hname⟩
  · intro hlookup
    obtain ⟨name, hmem, hname⟩ := name_of_lookupField hlookup
    have hlength := (responseFields_names _ hmem).2.mpr rfl
    rw [strcasestrEq, beq_iff_eq] at hname hlength ⊢
    exact hname.trans hlength

/-- What holds after the fields `seen`. -/
structure AppFields (seen : List HttpField) (r : Response) : Prop where
  tracked : Tracked r
  own : ∀ skip, r.contentLength ≠ .peer skip
  number : r.contentLengthN = none
  valid : ∀ g ∈ shown lengthName r.fields, g.lengthValid = true
  coding : shown codingName r.fields = [] ↔ shown codingName seen = []

theorem responseStatus_ok {r r' : Response} {f' : HttpField}
    (h : responseStatus r f = .ok (r', f')) :
    ∃ status, r' = { r with status := status } ∧ f' = { f with skip := true } := by
  rw [responseStatus] at h
  dsimp only at h
  split_ifs at h with hlen
  cases hparse : intParse (f.value.take 3) with
  | none =>
    rw [hparse] at h
    cases h
  | some status => ?_
  rw [hparse] at h
  dsimp only at h
  split_ifs at h with hrange
  cases h
  exact ⟨status, rfl, rfl⟩

theorem lengthName_ne_codingName (hname : strcasestrEq f.name lengthName = true) :
    strcasestrEq f.name codingName = false := by
  by_contra htrue
  rw [Bool.not_eq_false] at htrue
  exact absurd (strcasestrEq_trans hname htrue) (by decide)

section Step

variable {seen : List HttpField} {r : Response} (h : AppFields seen r)
include h

/-- The response after a rejected Content-Length: nothing is shown, nothing
tracked. -/
theorem AppFields.reject (hlength : shown lengthName fields = [])
    (hcoding : shown codingName fields = shown codingName r.fields) : AppFields seen { r with
      fields := fields, contentLength := .none, contentLengthN := none, inconsistent := true } := by
  refine ⟨⟨fun hs => (by cases hs), fun _ => hlength, fun hu => (by cases hu)⟩, ?_, rfl, ?_, ?_⟩
  · intro skip hs
    cases hs
  · intro g hg
    rw [hlength] at hg
    cases hg
  · rw [hcoding]
    exact h.coding

/-- A Content-Length is rejected together with the one that is tracked, or it
is the first one and gets tracked. -/
theorem AppFields.contentLength (hskip : f.skip = false)
    (hname : strcasestrEq f.name lengthName = true) :
    (∃ r', responseContentLength r f = (r', { f with skip := true }) ∧ AppFields seen r') ∨
      (∃ r', responseContentLength r f = (r', f) ∧
        AppFields seen { r' with fields := r'.fields ++ [f] }) := by
  rw [responseContentLength]
  cases hslot : r.contentLength with
  | peer skip => exact absurd hslot (h.own skip)
  | stored i =>
    obtain ⟨g, hg, hgname⟩ := h.tracked.slot hslot
    refine .inl ⟨_, rfl, h.reject ?_ ?_⟩
    · -- the tracked field was the only one shown
      have hlen := length_shown_modify hgname hg
      have hunset : r.lengthUnset = g.skip := by
        rw [Response.lengthUnset, hslot]
        dsimp only
        rw [hg]
        rfl
      apply eq_nil_of_length_eq_zero
      cases hgskip : g.skip with
      | true =>
        rw [h.tracked.unset (hunset.trans hgskip), hgskip] at hlen
        simpa using hlen
      | false => ?_
      obtain ⟨g', hshown⟩ := h.tracked.set (hunset.trans hgskip)
      rw [hshown, hgskip] at hlen
      simpa using hlen
    · exact shown_modify_of_ne (lengthName_ne_codingName hgname) hg
  | none => ?_
  have hnil : shown lengthName r.fields = [] :=
    h.tracked.unset (by rw [Response.lengthUnset, hslot])
  dsimp only
  have hreject : AppFields seen (rejectLength r f).1 := by
    have := h.reject hnil rfl
    rw [← hslot] at this
    exact this
  by_cases hinc : r.inconsistent = true
  · rw [if_pos hinc]
    exact .inl ⟨_, rfl, hreject⟩
  rw [if_neg hinc]
  by_cases hparse : offTParse (trimBlanks f.value) = none
  · rw [if_pos hparse]
    exact .inl ⟨_, rfl, hreject⟩
  rw [if_neg hparse]
  have hone : shown lengthName (r.fields ++ [f]) = [f] := by
    rw [shown_append, hnil, shown_singleton hskip hname, nil_append]
  have hat : (r.fields ++ [f])[r.fields.length]? = some f := by simp
  refine .inr ⟨_, rfl, ⟨?_, ?_, ?_⟩, ?_, h.number, ?_, ?_⟩
  · intro i hs
    cases hs
    exact ⟨f, hat, hname⟩
  · intro hu
    rw [Response.lengthUnset] at hu
    dsimp only at hu
    rw [hat, map_some, getD_some, hskip] at hu
    cases hu
  · exact fun _ => ⟨f, hone⟩
  · intro skip hs
    cases hs
  · intro g hg
    rw [hone, mem_singleton] at hg
    rw [hg, HttpField.lengthValid]
    exact ne_none_iff_isSome.mp hparse
  · dsimp only
    rw [shown_append, shown_singleton_of_ne (lengthName_ne_codingName hname), append_nil]
    exact h.coding

theorem AppFields.store (hlength : strcasestrEq f.name lengthName = false)
    (date : Bool) : AppFields (seen ++ [f]) { r with fields := r.fields ++ [f], date := date } := by
  have hkeeps : KeepsLength r.fields (r.fields ++ [f]) := .append hlength
  refine ⟨(h.tracked.of_keepsLength _ ?_ ?_).2, h.own, h.number, ?_, ?_⟩
  · exact hkeeps
  · rfl
  · dsimp only
    rw [hkeeps.length]
    exact h.valid
  · dsimp only
    rw [shown_append, shown_append, append_eq_nil_iff, append_eq_nil_iff, h.coding]

/-- What is seen may be told with fields that do not matter. -/
theorem AppFields.snoc (hf : shown codingName [f] = []) : AppFields (seen ++ [f]) r := by
  refine ⟨h.tracked, h.own, h.number, h.valid, ?_⟩
  rw [shown_append, hf, append_nil]
  exact h.coding

theorem AppFields.withStatus (status : HttpStatus) : AppFields seen { r with status := status } :=
  ⟨⟨h.tracked.slot, h.tracked.unset, h.tracked.set⟩, h.own, h.number, h.valid, h.coding⟩

theorem AppFields.step (hskip : f.skip = false)
    (hhash : strcasestrEq f.name lengthName = true → f.WellHashed) {r' : Response}
    {f' : HttpField} (hf : fieldProcess responseFields responseHandler r f = .ok (r', f')) :
    AppFields (seen ++ [f])
      (if f'.skip then r' else { r' with fields := r'.fields ++ [f'] }) := by
  rw [fieldProcess] at hf
  by_cases hname : strcasestrEq f.name lengthName = true
  · have hcoding : shown codingName [f] = [] :=
      shown_singleton_of_ne (lengthName_ne_codingName hname)
    rw [(lookup_contentLength hhash).mp hname] at hf
    dsimp only [responseHandler] at hf
    rcases h.contentLength hskip hname with ⟨r1, hr1, happ⟩ | ⟨r1, hr1, happ⟩
    · rw [hr1] at hf
      cases hf
      exact happ.snoc hcoding
    rw [hr1] at hf
    cases hf
    rw [if_neg (by simp [hskip])]
    exact happ.snoc hcoding
  have hlength : strcasestrEq f.name lengthName = false := by simpa using hname
  cases hlookup : lookupField responseFields f with
  | none =>
    rw [hlookup] at hf
    cases hf
    rw [if_neg (by simp [hskip])]
    exact h.store hlength r.date
  | some handler => ?_
  have hcoding : shown codingName [f] = [] := shown_singleton_of_ne (not_coding_of_lookup hlookup)
  rw [hlookup] at hf
  cases handler with
  | status =>
    obtain ⟨status, rfl, rfl⟩ := responseStatus_ok hf
    exact (h.withStatus status).snoc hcoding
  | skip =>
    cases hf
    exact h.snoc hcoding
  | date =>
    cases hf
    rw [if_neg (by simp [hskip])]
    exact h.store hlength true
  | contentType =>
    cases hf
    rw [if_neg (by simp [hskip])]
    exact h.store hlength r.date
  | contentLength => exact absurd ((lookup_contentLength hhash).mpr hlookup) hname

end Step

/-- **The fields of an application leave one Content-Length at most**, a valid
one that the response points to; a Transfer-Encoding field stays. -/
theorem responseHeaderParse_appFields {fields seen : List HttpField} {r r' : Response}
    (h : AppFields seen r)
    (hhash : ∀ f ∈ fields, strcasestrEq f.name lengthName = true → f.WellHashed)
    (hr : responseHeaderParse r fields = .ok r') : AppFields (seen ++ fields) r' := by
  induction fields generalizing seen r r' with
  | nil =>
    cases hr
    rwa [append_nil]
  | cons uf fields ih => ?_
  rw [append_cons]
  rw [forall_mem_cons] at hhash
  rw [responseHeaderParse] at hr
  cases hskip : uf.skip with
  | true =>
    rw [if_pos hskip] at hr
    exact ih (h.snoc (by simp [shown, hskip])) hhash.2 hr
  | false => ?_
  rw [if_neg (by simp [hskip])] at hr
  cases hf : fieldProcess responseFields responseHandler r { uf with hopbyhop := false } with
  | error status =>
    rw [hf] at hr
    cases hr
  | ok x => ?_
  obtain ⟨r1, f1⟩ := x
  rw [hf] at hr
  have hstep := h.step (f := { uf with hopbyhop := false }) hskip hhash.1 hf
  have hsame : shown codingName [{ uf with hopbyhop := false }] = [] ↔
      shown codingName [uf] = [] := by
    simp [shown]
  refine ih ⟨hstep.tracked, hstep.own, hstep.number, hstep.valid, ?_⟩ hhash.2 hr
  rw [hstep.coding, shown_append, shown_append, append_eq_nil_iff, append_eq_nil_iff, hsame]

end FreeUnit
