/-
A response on its way from an application to the router
(`nxt_router_response_header_parse`).

The router reads the message that the library has built, or whatever an
application has put in its place: it is shared memory, and nothing in it is
taken on trust.

* `sentFields_of_parse` — which fields the handlers of the router leave;
* `responseMessage_of_draft` — the message of a response is read as that
  response.
-/
import FreeUnit.UnitResponse
import FreeUnit.ResponseFraming

namespace FreeUnit

open List

open UnitResponse (fieldPos)

/-! ### Reading a message -/

/-- The loop over the fields: `n` of them from number `i` on.  The first part
of the result lists the bytes that are used, by position and length. -/
def headerFields (msg : Bytes) : ℕ → ℕ → Response → List (ℕ × ℕ) × Except HttpStatus Response
  | 0, _, r => ([], .ok r)
  | n + 1, i, r =>
    let uf := UnitField.read msg (fieldPos i)
    let record := (fieldPos i, UnitField.size)
    if uf.skip then
      let rest := headerFields msg n (i + 1) r
      (record :: rest.1, rest.2)
    else
      match sptrInBuf msg (fieldPos i + 8) uf.nameLength.toNat,
        sptrInBuf msg (fieldPos i + 12) uf.valueLength.toNat with
      | some name, some value =>
        let strings := [(name, uf.nameLength.toNat), (value, uf.valueLength.toNat)]
        let field : HttpField := {
          name := slice msg name uf.nameLength.toNat
          value := slice msg value uf.valueLength.toNat
          hash := uf.hash }
        match responseHeaderParse r [field] with
        | .error status => (record :: strings, .error status)
        | .ok r =>
          let rest := headerFields msg n (i + 1) r
          (record :: (strings ++ rest.1), rest.2)
      | _, _ => ([record], .error .serviceUnavailable)

/-- `nxt_router_response_header_parse`: the bytes that are used, and the
response with the content that came along. -/
def responseMessage (r : Response) (msg : Bytes) :
    List (ℕ × ℕ) × Except HttpStatus (Response × Bytes) :=
  if msg.length < ResponseHead.size ∨ msg.length > 2 ^ 32 - 1 then ([], .error .serviceUnavailable)
  else
    let head := (0, ResponseHead.size)
    let count := leAt msg 8 4
    if count > (msg.length - ResponseHead.size) / UnitField.size then
      ([head], .error .serviceUnavailable)
    else
      match headerFields msg count 0 r with
      | (used, .error status) => (head :: used, .error status)
      | (used, .ok r) =>
        let r := { r with status := leAt msg 16 2 }
        let length := leAt msg 12 4
        if length ≠ 0 then
          match sptrInBuf msg 20 length with
          | none => (head :: used, .error .serviceUnavailable)
          | some pos => (head :: (pos, length) :: used, .ok (r, slice msg pos length))
        else (head :: used, .ok (r, []))

theorem responseHeaderParse_cons (r : Response) (f : HttpField) (fields : List HttpField) :
    responseHeaderParse r (f :: fields) = match responseHeaderParse r [f] with
      | .error status => .error status
      | .ok r => responseHeaderParse r fields := by
  rw [responseHeaderParse, responseHeaderParse]
  split
  · rfl
  split
  · rfl
  · rfl

/-! ### Only bytes of the message are used -/

theorem headerFields_inside (msg : Bytes) (n i : ℕ) (r : Response)
    (h : fieldPos (i + n) ≤ msg.length) :
    ∀ a ∈ (headerFields msg n i r).1, a.1 + a.2 ≤ msg.length := by
  induction n generalizing i r with
  | zero =>
    intro a ha
    cases ha
  | succ n ih => ?_
  have hrecord : fieldPos i + UnitField.size ≤ msg.length := by
    unfold fieldPos at h ⊢
    have : UnitField.size * (i + (n + 1)) = UnitField.size * i + UnitField.size +
        UnitField.size * n := by ring
    omega
  have hnext : fieldPos (i + 1 + n) ≤ msg.length := by rwa [Nat.add_right_comm, Nat.add_assoc]
  intro a ha
  unfold headerFields at ha
  dsimp only at ha
  split at ha
  · rcases mem_cons.mp ha with rfl | ha
    · exact hrecord
    · exact ih (i + 1) r hnext a ha
  split at ha
  · -- both strings have passed the check
    rename_i name value hname hvalue
    have hstrings : ∀ a ∈ [(name, (UnitField.read msg (fieldPos i)).nameLength.toNat),
        (value, (UnitField.read msg (fieldPos i)).valueLength.toNat)],
        a.1 + a.2 ≤ msg.length := by
      intro a ha
      rcases mem_cons.mp ha with rfl | ha
      · exact (sptrInBuf_eq_some.mp hname).2.2
      rw [mem_singleton.mp ha]
      exact (sptrInBuf_eq_some.mp hvalue).2.2
    split at ha
    · rcases mem_cons.mp ha with rfl | ha
      · exact hrecord
      · exact hstrings a ha
    rename_i r' _
    rcases mem_cons.mp ha with rfl | ha
    · exact hrecord
    rcases mem_append.mp ha with ha | ha
    · exact hstrings a ha
    · exact ih (i + 1) r' hnext a ha
  rw [mem_singleton.mp ha]
  exact hrecord

/-- **Whatever is received**, only bytes inside the message are used. -/
theorem responseMessage_inside (r : Response) (msg : Bytes) :
    ∀ a ∈ (responseMessage r msg).1, a.1 + a.2 ≤ msg.length := by
  intro a ha
  unfold responseMessage at ha
  split at ha
  · cases ha
  rename_i hsize
  have hhead : ResponseHead.size ≤ msg.length := by
    rw [not_or] at hsize
    exact not_lt.mp hsize.1
  dsimp only at ha
  split at ha
  · rw [mem_singleton.mp ha, Nat.zero_add]
    exact hhead
  rename_i hcount
  have hfields : fieldPos (0 + leAt msg 8 4) ≤ msg.length := by
    have hmul := Nat.mul_le_of_le_div _ _ _ (not_lt.mp hcount)
    unfold fieldPos
    rw [Nat.zero_add, Nat.mul_comm]
    omega
  have hused := headerFields_inside msg _ 0 r hfields
  split at ha
  · rename_i used status hrun
    rw [hrun] at hused
    rcases mem_cons.mp ha with rfl | ha
    · rwa [Nat.zero_add]
    · exact hused a ha
  rename_i used r' hrun
  rw [hrun] at hused
  split at ha
  · split at ha
    · rcases mem_cons.mp ha with rfl | ha
      · rwa [Nat.zero_add]
      · exact hused a ha
    rename_i pos hpos
    rcases mem_cons.mp ha with rfl | ha
    · rwa [Nat.zero_add]
    rcases mem_cons.mp ha with rfl | ha
    · exact (sptrInBuf_eq_some.mp hpos).2.2
    · exact hused a ha
  rcases mem_cons.mp ha with rfl | ha
  · rwa [Nat.zero_add]
  · exact hused a ha

/-! ### What the handlers leave -/

def droppedNames : List Bytes :=
  [str "Status", str "Server", str "Connection", str "Upgrade", str "Sec-WebSocket-Accept"]

def HttpField.isDropped (f : HttpField) : Bool := droppedNames.any fun name => strcasestrEq f.name name

def HttpField.isLength (f : HttpField) : Bool := strcasestrEq f.name lengthName

/-- A Content-Length is left if it is the only one and valid, unless one was
rejected before. -/
def lengthLeft (inconsistent : Bool) (fields : List HttpField) : Bool :=
  match fields.filter HttpField.isLength with
  | [f] => !inconsistent && f.lengthValid
  | _ => false

def leftFields (inconsistent : Bool) (fields : List HttpField) : List HttpField :=
  if lengthLeft inconsistent fields then fields.filter fun f => !f.isDropped
  else fields.filter fun f => !f.isDropped && !f.isLength

variable {f : HttpField} {inconsistent : Bool} {seen : List HttpField} {r : Response}

theorem not_isDropped_of_isLength (h : f.isLength = true) : f.isDropped = false := by
  have hnames : ∀ name ∈ droppedNames, strcasestrEq lengthName name = false := by decide
  rw [HttpField.isDropped, any_eq_false]
  intro name hname htrue
  have hne := hnames name hname
  rw [strcasestrEq_trans h htrue] at hne
  cases hne

theorem lookup_cases (hf : f.WellHashed) :
    (f.isDropped = true ∧ (lookupField responseFields f = some .status ∨
      lookupField responseFields f = some .skip)) ∨
    (f.isLength = true ∧ lookupField responseFields f = some .contentLength) ∨
    (f.isDropped = false ∧ f.isLength = false ∧ (lookupField responseFields f = none ∨
      lookupField responseFields f = some .date ∨
        lookupField responseFields f = some .contentType)) := by
  have hlook := fun h => lookupField_eq_some_iff responseFields_nodup hf h
  by_cases hl : f.isLength = true
  · exact .inr (.inl ⟨hl, (lookup_contentLength fun _ => hf).mp hl⟩)
  by_cases hd : f.isDropped = true
  · refine .inl ⟨hd, ?_⟩
    have htable : ∀ name ∈ droppedNames, (name, ResponseHandler.status) ∈ responseFields ∨
          (name, ResponseHandler.skip) ∈ responseFields := by decide
    obtain ⟨name, hname, heq⟩ := any_eq_true.mp hd
    rcases htable name hname with hmem | hmem
    · exact .inl ((hlook _).mpr ⟨name, hmem, heq⟩)
    · exact .inr ((hlook _).mpr ⟨name, hmem, heq⟩)
  rw [Bool.not_eq_true] at hl hd
  refine .inr (.inr ⟨hd, hl, ?_⟩)
  have htable : ∀ e ∈ responseFields, e.2 = .date ∨ e.2 = .contentType ∨
      e.1 ∈ droppedNames ∨ e.1 = lengthName := by decide
  cases hsome : lookupField responseFields f with
  | none => exact .inl rfl
  | some h => ?_
  obtain ⟨name, hmem, heq⟩ := name_of_lookupField hsome
  rcases htable _ hmem with hh | hh | hh | hh
  · exact .inr (.inl (congrArg some hh))
  · exact .inr (.inr (congrArg some hh))
  · have hdrop : f.isDropped = true := any_eq_true.mpr ⟨name, hh, heq⟩
    rw [hdrop] at hd
    cases hd
  dsimp only at hh
  rw [hh] at heq
  rw [HttpField.isLength, heq] at hl
  cases hl

def unskipped (fields : List HttpField) : List HttpField := fields.filter fun f => !f.skip

/-- What became of the Content-Length fields seen so far. -/
inductive LengthSeen (inconsistent : Bool) (seen : List HttpField) (r : Response) : Prop
  | none (hseen : seen.filter HttpField.isLength = []) (hslot : r.contentLength = .none)
      (hinc : r.inconsistent = inconsistent)
  | one (g : HttpField) (i : ℕ) (hseen : seen.filter HttpField.isLength = [g])
      (hvalid : g.lengthValid = true) (hfirst : inconsistent = false)
      (hslot : r.contentLength = .stored i) (hat : r.fields[i]? = some g) (hskip : g.skip = false)
      (hinc : r.inconsistent = false)
  | rejected (hseen : seen.filter HttpField.isLength ≠ [])
      (hleft : lengthLeft inconsistent seen = false) (hslot : r.contentLength = .none)
      (hinc : r.inconsistent = true)

structure Left (inconsistent : Bool) (seen : List HttpField) (r : Response) : Prop where
  fields : unskipped r.fields = leftFields inconsistent seen
  length : LengthSeen inconsistent seen r

theorem lengthLeft_snoc
    (hf : f.isLength = false) : lengthLeft inconsistent (seen ++ [f]) = lengthLeft inconsistent seen := by
  have hnil : [f].filter HttpField.isLength = [] := by simp [hf]
  rw [lengthLeft, filter_append, hnil, append_nil, lengthLeft]

theorem leftFields_snoc (hf : f.isLength = false) : leftFields inconsistent (seen ++ [f]) =
      leftFields inconsistent seen ++ if f.isDropped then [] else [f] := by
  rw [leftFields, leftFields, lengthLeft_snoc hf]
  cases hd : f.isDropped
  · split
    · simp [filter_append, hd]
    · simp [filter_append, hd, hf]
  split
  · simp [filter_append, hd]
  · simp [filter_append, hd]

variable {r' : Response}

/-- A field of another name changes nothing about Content-Length. -/
theorem LengthSeen.snoc (h : LengthSeen inconsistent seen r) (hf : f.isLength = false)
    (hslot : r'.contentLength = r.contentLength) (hinc : r'.inconsistent = r.inconsistent)
    (hfields : r'.fields = r.fields ∨ r'.fields = r.fields ++ [f]) :
    LengthSeen inconsistent (seen ++ [f]) r' := by
  have hseen : (seen ++ [f]).filter HttpField.isLength = seen.filter HttpField.isLength := by
    simp [filter_append, hf]
  cases h with
  | none h hs hi => exact .none (hseen.trans h) (hslot.trans hs) (hinc.trans hi)
  | one g i h hv hfirst hs hat hskip hi =>
    refine .one g i (hseen.trans h) hv hfirst (hslot.trans hs) ?_ hskip (hinc.trans hi)
    rcases hfields with hr | hr
    · rw [hr, hat]
    · rw [hr, List.getElem?_append_left (List.getElem?_eq_some_iff.mp hat).1, hat]
  | rejected h hleft hs hi =>
    exact .rejected (hseen ▸ h) ((lengthLeft_snoc hf).trans hleft) (hslot.trans hs) (hinc.trans hi)

variable {fields : List HttpField} {i : ℕ}

/-- Taking the only Content-Length off what is shown. -/
theorem unskipped_modify {g : HttpField} (hg : g.isLength = true) (hskip : g.skip = false)
    (h : fields[i]? = some g) (hone : (unskipped fields).filter HttpField.isLength = [g]) :
    unskipped (fields.modify i fun f => { f with skip := true }) =
        (unskipped fields).filter fun f => !f.isLength := by
  induction fields generalizing i with
  | nil =>
    cases h
  | cons f fields ih => ?_
  cases i with
  | zero =>
    rw [getElem?_cons_zero, Option.some.injEq] at h
    subst h
    have hrest : (unskipped fields).filter HttpField.isLength = [] := by
      simpa [unskipped, hskip, hg] using hone
    have hkeep : ∀ x ∈ unskipped fields, (!x.isLength) = true := by
      intro x hx
      have hno := filter_eq_nil_iff.mp hrest x hx
      rw [Bool.not_eq_true] at hno
      rw [hno]
      rfl
    have hall : unskipped fields = (unskipped fields).filter fun f => !f.isLength :=
      (filter_eq_self.mpr hkeep).symm
    rw [modify_zero_cons]
    simpa [unskipped, hskip, hg] using hall
  | succ i => ?_
  rw [getElem?_cons_succ] at h
  rw [modify_succ_cons]
  -- the field at the head is not the one
  have hmem : g ∈ (unskipped fields).filter HttpField.isLength := by
    rw [mem_filter, unskipped, mem_filter]
    exact ⟨⟨mem_of_getElem? h, by rw [hskip]; rfl⟩, hg⟩
  cases hf : f.skip with
  | true =>
    have hone' : (unskipped fields).filter HttpField.isLength = [g] := by
      simpa [unskipped, hf] using hone
    have hrest := ih h hone'
    simpa [unskipped, hf] using hrest
  | false => ?_
  cases hl : f.isLength with
  | true =>
    have hnil : (unskipped fields).filter HttpField.isLength = [] := by
      have := congrArg tail hone
      simpa [unskipped, hf, hl] using this
    rw [hnil] at hmem
    cases hmem
  | false => ?_
  have hone' : (unskipped fields).filter HttpField.isLength = [g] := by
    simpa [unskipped, hf, hl] using hone
  have hrest := ih h hone'
  simpa [unskipped, hf, hl] using hrest

theorem filter_isLength_snoc (hf : f.isLength = true) :
    (seen ++ [f]).filter HttpField.isLength = seen.filter HttpField.isLength ++ [f] := by
  simp [filter_append, hf]

/-- The response after a Content-Length that is rejected. -/
theorem Left.rejected
    (hf : f.isLength = true) (hleft : lengthLeft inconsistent (seen ++ [f]) = false)
    (hfields : unskipped r.fields = seen.filter fun f => !f.isDropped && !f.isLength)
    (hslot : r.contentLength = .none) : Left inconsistent (seen ++ [f]) (rejectLength r f).1 := by
  refine ⟨?_, .rejected ?_ hleft hslot rfl⟩
  · show unskipped r.fields = _
    rw [leftFields, hleft, if_neg Bool.false_ne_true, hfields, filter_append]
    simp [hf]
  · rw [filter_isLength_snoc hf]
    simp

/-- **A Content-Length** is kept, or rejected with the one before it. -/
theorem Left.contentLength {f' : HttpField} (h : Left inconsistent seen r) (hf : f.isLength = true)
    (hskip : f.skip = false) (hr : responseContentLength r f = (r', f')) :
    Left inconsistent (seen ++ [f]) (if f'.skip then r' else { r' with fields := r'.fields ++ [f'] }) := by
  have hfields := h.fields
  unfold responseContentLength at hr
  cases h.length with
  | none hseen hslot hinc =>
    -- with no Content-Length yet, nothing but dropped fields is gone
    have hnone : ∀ x ∈ seen, x.isLength = false := by
      intro x hx
      have hno := filter_eq_nil_iff.mp hseen x hx
      rwa [Bool.not_eq_true] at hno
    have hplain : (seen.filter fun f => !f.isDropped && !f.isLength) =
        seen.filter fun f => !f.isDropped := by
      refine filter_congr fun x hx => ?_
      rw [hnone x hx]
      simp
    have hleft : lengthLeft inconsistent seen = false := by rw [lengthLeft, hseen]
    rw [leftFields, hleft, if_neg Bool.false_ne_true] at hfields
    have hone : lengthLeft inconsistent (seen ++ [f]) = (!inconsistent && f.lengthValid) := by
      rw [lengthLeft, filter_isLength_snoc hf, hseen]
      rfl
    rw [hslot] at hr
    dsimp only at hr
    split at hr
    · rename_i hi
      cases hr
      refine Left.rejected hf ?_ hfields hslot
      rw [hone, ← hinc, hi]
      rfl
    rename_i hi
    rw [Bool.not_eq_true, hinc] at hi
    split at hr
    · rename_i hparse
      cases hr
      refine Left.rejected hf ?_ hfields hslot
      rw [hone, HttpField.lengthValid, hparse]
      simp
    rename_i hparse
    cases hr
    have hvalid : f.lengthValid = true := by
      rw [HttpField.lengthValid]
      exact Option.ne_none_iff_isSome.mp hparse
    rw [hskip, if_neg Bool.false_ne_true]
    refine ⟨?_, .one f r.fields.length ?_ hvalid hi rfl ?_ hskip (hinc.trans hi)⟩
    · rw [leftFields, hone, hi, hvalid]
      have hd := not_isDropped_of_isLength hf
      simp only [unskipped, filter_append] at hfields ⊢
      rw [hfields, hplain]
      simp [hskip, hd]
    · rw [filter_isLength_snoc hf, hseen, nil_append]
    · simp
  | one g i hseen hvalid hfirst hslot hat hgskip hinc =>
    rw [hslot] at hr
    cases hr
    have hgl : g.isLength = true := by
      have hmem : g ∈ seen.filter HttpField.isLength := by simp [hseen]
      exact (mem_filter.mp hmem).2
    have hkept : lengthLeft inconsistent seen = true := by
      rw [lengthLeft, hseen, hfirst]
      dsimp only
      rw [hvalid]
      rfl
    rw [leftFields, hkept, if_pos rfl] at hfields
    have hone : (unskipped r.fields).filter HttpField.isLength = [g] := by
      rw [hfields, filter_filter, ← hseen]
      refine filter_congr fun x _ => ?_
      cases hx : x.isLength with
      | false => simp
      | true => simp [not_isDropped_of_isLength hx]
    have hmod := unskipped_modify hgl hgskip hat hone
    refine Left.rejected hf ?_ ?_ rfl
    · rw [lengthLeft, filter_isLength_snoc hf, hseen]
      rfl
    · show unskipped (r.fields.modify i _) = _
      rw [hmod, hfields, filter_filter]
      refine filter_congr fun x _ => ?_
      rw [Bool.and_comm]
  | rejected hseen hleft hslot hinc =>
    rw [hslot] at hr
    dsimp only at hr
    rw [if_pos hinc] at hr
    cases hr
    rw [leftFields, hleft, if_neg Bool.false_ne_true] at hfields
    refine Left.rejected hf ?_ hfields hslot
    rw [lengthLeft, filter_isLength_snoc hf]
    cases hl : seen.filter HttpField.isLength with
    | nil => exact absurd hl hseen
    | cons x l => ?_
    cases l with
    | nil | cons => rfl

theorem Left.step (h : Left inconsistent seen r) (hf : f.WellHashed) (hskip : f.skip = false)
    (hhop : f.hopbyhop = false) (hr : responseHeaderParse r [f] = .ok r') :
    Left inconsistent (seen ++ [f]) r' := by
  have hsame : (⟨f.name, f.value, f.hash, false, false⟩ : HttpField) = f := by
    cases f
    cases hskip
    cases hhop
    rfl
  rw [responseHeaderParse, hskip, if_neg Bool.false_ne_true, hsame, fieldProcess] at hr
  have hstore : f.isDropped = false → f.isLength = false → ∀ date : Bool,
      Left inconsistent (seen ++ [f]) { r with fields := r.fields ++ [f], date := date } := by
    intro hd hl date
    refine ⟨?_, h.length.snoc hl rfl rfl (.inr rfl)⟩
    rw [leftFields_snoc hl, hd, if_neg Bool.false_ne_true, ← h.fields]
    simp [unskipped, filter_append, hskip]
  rcases lookup_cases hf with ⟨hd, hlook⟩ | ⟨hl, hlook⟩ | ⟨hd, hl, hlook⟩
  · have hl : f.isLength = false := by
      by_contra htrue
      rw [Bool.not_eq_false] at htrue
      rw [not_isDropped_of_isLength htrue] at hd
      cases hd
    have hleft : leftFields inconsistent (seen ++ [f]) = leftFields inconsistent seen := by
      rw [leftFields_snoc hl, hd, if_pos rfl, append_nil]
    rcases hlook with hlook | hlook
    · rw [hlook] at hr
      dsimp only [responseHandler] at hr
      split at hr
      · cases hr
      rename_i x r₁ f₁ hstatus
      obtain ⟨status, rfl, rfl⟩ := responseStatus_ok hstatus
      rw [responseHeaderParse] at hr
      cases hr
      exact ⟨h.fields.trans hleft.symm, h.length.snoc hl rfl rfl (.inl rfl)⟩
    rw [hlook] at hr
    cases hr
    exact ⟨h.fields.trans hleft.symm, h.length.snoc hl rfl rfl (.inl rfl)⟩
  · rw [hlook] at hr
    dsimp only [responseHandler] at hr
    rw [responseHeaderParse] at hr
    cases hr
    exact h.contentLength hl hskip rfl
  rcases hlook with hlook | hlook | hlook
  · rw [hlook] at hr
    dsimp only at hr
    rw [hskip, responseHeaderParse] at hr
    cases hr
    exact hstore hd hl r.date
  · rw [hlook] at hr
    dsimp only [responseHandler] at hr
    rw [hskip, responseHeaderParse] at hr
    cases hr
    exact hstore hd hl true
  rw [hlook] at hr
  dsimp only [responseHandler] at hr
  rw [hskip, responseHeaderParse] at hr
  cases hr
  exact hstore hd hl r.date

/-- The fields that are left of all of an application's. -/
theorem Left.parse (hfields : ∀ f ∈ fields, f.WellHashed ∧ f.skip = false ∧ f.hopbyhop = false)
    {seen : List HttpField} {r r' : Response} (h : Left inconsistent seen r)
    (hr : responseHeaderParse r fields = .ok r') : Left inconsistent (seen ++ fields) r' := by
  induction fields generalizing seen r r' with
  | nil =>
    cases hr
    rwa [append_nil]
  | cons f fields ih => ?_
  obtain ⟨hf, hskip, hhop⟩ := hfields f mem_cons_self
  rw [responseHeaderParse_cons] at hr
  split at hr
  · cases hr
  rename_i mid hmid
  have hrest := ih (fun x hx => hfields x (mem_cons_of_mem _ hx))
    (h.step hf hskip hhop hmid) hr
  rwa [append_assoc] at hrest

/-! ### The message of a response -/

open UnitResponse (Draft Call Req)

def appFields (d : Draft) : List HttpField := d.fields.map fun f => .ofLine f.1 f.2

variable {b : UnitResponse.Buf} {d : Draft}

/-- **The fields are read as they were added.** -/
theorem headerFields_of_encodes (h : UnitResponse.Encodes b d) {n : ℕ}
    (hn : i + n = d.fields.length) (r : Response) :
    (headerFields b.bytes n i r).2 = responseHeaderParse r ((appFields d).drop i) := by
  induction n generalizing i r with
  | zero =>
    have hnil : (appFields d).drop i = [] := drop_eq_nil_of_le (by simp [appFields]; omega)
    rw [hnil]
    rfl
  | succ n ih => ?_
  have hi : i < d.fields.length := by omega
  have hget : d.fields[i]? = some d.fields[i] := getElem?_eq_getElem hi
  obtain ⟨u, hu⟩ := h.entry i _ hget
  have hslice := UnitResponse.Buf.slice_field hu.at_eq
  have hread := UnitField.read_bytes hslice
  obtain ⟨hname, hvalue⟩ := UnitField.leAt_pointers hslice
  have hpos := UnitResponse.Buf.fieldPos_le (List.getElem?_eq_some_iff.mp hu.at_eq).1
  have hbase : b.base ≤ b.bytes.length := by
    rw [UnitResponse.Buf.length_bytes]
    exact Nat.le_add_right _ _
  have hnameIn : sptrInBuf b.bytes (fieldPos i + 8) d.fields[i].1.length =
      some (sptrGet (fieldPos i + 8) u.name) := by
    refine sptrInBuf_eq_some.mpr ⟨by omega, by rw [hname, sptrGet], ?_⟩
    rw [UnitResponse.Buf.length_bytes]
    exact hu.name.le_free
  have hvalueIn : sptrInBuf b.bytes (fieldPos i + 12) d.fields[i].2.length =
      some (sptrGet (fieldPos i + 12) u.value) := by
    refine sptrInBuf_eq_some.mpr ⟨by omega, by rw [hvalue, sptrGet], ?_⟩
    rw [UnitResponse.Buf.length_bytes]
    exact hu.value.le_free
  have hdrop : (appFields d).drop i =
      HttpField.ofLine d.fields[i].1 d.fields[i].2 :: (appFields d).drop (i + 1) := by
    rw [drop_eq_getElem_cons (by simpa [appFields] using hi)]
    simp [appFields]
  rw [hdrop, responseHeaderParse_cons]
  unfold headerFields
  dsimp only
  rw [hread, hu.skip, if_neg Bool.false_ne_true, hu.nameLength, hu.valueLength, hnameIn, hvalueIn]
  dsimp only
  rw [UnitResponse.Buf.slice_data hu.name, UnitResponse.Buf.slice_data hu.value, hu.hash]
  show Prod.snd (match responseHeaderParse r [HttpField.ofLine d.fields[i].1 d.fields[i].2] with
    | .error status => _ | .ok r => _) = _
  cases hstep : responseHeaderParse r [HttpField.ofLine d.fields[i].1 d.fields[i].2] with
  | error status => rfl
  | ok r' => exact ih (by omega) r'

theorem responseMessage_of_encodes (h : UnitResponse.Encodes b d) (r : Response) :
    (responseMessage r b.bytes).2 = match responseHeaderParse r (appFields d) with
      | .error status => .error status
      | .ok r => .ok ({ r with status := d.status.toNat }, d.content) := by
  have hfits := h.fits
  have hsmall := h.small
  have hle := h.le
  obtain ⟨hcount, hlength, hstatus, hcontent⟩ := ResponseHead.read_bytes b.slice_head
  rw [h.count] at hcount
  rw [h.length] at hlength
  rw [h.status] at hstatus
  have hbase : ResponseHead.size + UnitField.size * b.table.length ≤ b.bytes.length := by
    rw [UnitResponse.Buf.length_bytes]
    exact Nat.le_add_right _ _
  have hlen : b.bytes.length < 2 ^ 31 := by
    rw [UnitResponse.Buf.length_bytes]
    omega
  have hsize : ¬ (b.bytes.length < ResponseHead.size ∨ b.bytes.length > 2 ^ 32 - 1) := by omega
  have hcountOk : ¬ d.fields.length > (b.bytes.length - ResponseHead.size) / UnitField.size := by
    rw [not_lt, Nat.le_div_iff_mul_le (by decide), Nat.mul_comm]
    have := Nat.mul_le_mul_left UnitField.size hle
    omega
  have hfields := headerFields_of_encodes h (Nat.zero_add d.fields.length) r
  rw [drop_zero] at hfields
  rw [responseMessage, if_neg hsize]
  dsimp only
  rw [hcount, if_neg hcountOk, ← hfields]
  rcases hrun : headerFields b.bytes d.fields.length 0 r with ⟨used, status | r'⟩
  · rfl
  dsimp only
  rw [hlength, hstatus]
  by_cases hc : d.content = []
  · rw [hc, length_nil, if_neg (by simp)]
  obtain ⟨hat, hend⟩ := h.content hc
  have hpos : sptrInBuf b.bytes 20 d.content.length =
      some (sptrGet 20 b.head.piggybackContent) := by
    refine sptrInBuf_eq_some.mpr ⟨?_, by rw [hcontent, sptrGet], ?_⟩
    · unfold ResponseHead.size at hbase
      omega
    · rw [UnitResponse.Buf.length_bytes]
      exact hat.le_free
  rw [if_pos (by simpa using hc), hpos]
  dsimp only
  rw [UnitResponse.Buf.slice_data hat]

theorem appFields_wellHashed (d : Draft) :
    ∀ f ∈ appFields d, f.WellHashed ∧ f.skip = false ∧ f.hopbyhop = false := by
  intro f hf
  obtain ⟨x, -, rfl⟩ := mem_map.mp hf
  exact ⟨HttpField.wellHashed_ofLine _ _, rfl, rfl⟩

/-- **A response is received as it was built.**  After calls of the application
library that all succeed, the router reads the status, the fields apart from
those that its handlers drop, and the content; it refuses the response if a
Status field has no status.  Of any message at all it uses only what is inside
it. -/
theorem response_received {calls : List Call} {req : Req} {b : UnitResponse.Buf}
    (hrun : UnitResponse.run Req.new calls = some req) (hb : req.response = some b) :
    (∃ d, UnitResponse.draft calls = some d ∧
      ∀ r : Response, r.fields = [] → r.contentLength = .none →
        if (appFields d).any badStatus then ∃ status, (responseMessage r b.bytes).2 = .error status
        else
          ∃ r', (responseMessage r b.bytes).2 = .ok (r', d.content) ∧
            r'.status = d.status.toNat ∧
            unskipped r'.fields = leftFields r.inconsistent (appFields d)) ∧
    ∀ (r : Response) (msg : Bytes), ∀ a ∈ (responseMessage r msg).1, a.1 + a.2 ≤ msg.length := by
  refine ⟨?_, responseMessage_inside⟩
  obtain ⟨d, hd, henc⟩ := UnitResponse.run_encodes hrun hb
  refine ⟨d, hd, fun r hfields hslot => ?_⟩
  have herror := responseHeaderParse_error_iff (appFields d) r
  rw [responseMessage_of_encodes henc]
  split
  · rename_i hbad
    obtain ⟨status, hstatus⟩ := herror.mpr hbad
    exact ⟨status, by rw [hstatus]⟩
  rename_i hgood
  cases hparse : responseHeaderParse r (appFields d) with
  | error status => exact absurd (herror.mp ⟨status, hparse⟩) hgood
  | ok r' => ?_
  have hstart : Left r.inconsistent [] r :=
    ⟨by rw [hfields]; rfl, .none rfl hslot rfl⟩
  have hleft := hstart.parse (appFields_wellHashed d) hparse
  rw [nil_append] at hleft
  exact ⟨_, rfl, rfl, hleft.fields⟩

def usedMemory : ℕ → UnitField := fun _ => ⟨0, 0xFF, 0, 0, 0, 0⟩

/-- A response of one field that is moved to a larger buffer before its content
is added. -/
theorem response_received_moved :
    let calls : List Call := [.init 200 1 16 usedMemory (some usedMemory),
      .addField (str "Etag") (str "x") (by decide) (by decide),
      .realloc 2 2000 (some usedMemory), .addContent (str "body") (by decide)]
    ∃ req b, UnitResponse.run Req.new calls = some req ∧ req.response = some b ∧
      ∃ r', (responseMessage {} b.bytes).2 = .ok (r', str "body") ∧ r'.status = 200 ∧
        unskipped r'.fields = [.ofLine (str "Etag") (str "x")] := by
  intro calls
  obtain ⟨req, b, hrun, hb⟩ : ∃ req b, UnitResponse.run Req.new calls = some req ∧
    req.response = some b := ⟨_, _, rfl, rfl⟩
  obtain ⟨⟨d, hd, hread⟩, -⟩ := response_received hrun hb
  obtain rfl : ⟨200, [(str "Etag", str "x")], str "body"⟩ = d := Option.some.inj hd
  have hgood : (appFields ⟨200, [(str "Etag", str "x")], str "body"⟩).any badStatus = false := by
    decide +kernel
  have hleft : leftFields false (appFields ⟨200, [(str "Etag", str "x")], str "body"⟩) =
      [.ofLine (str "Etag") (str "x")] := by decide +kernel
  simp only [hgood, Bool.false_eq_true, if_false] at hread
  obtain ⟨r', hmsg, hstatus, hfields⟩ := hread {} rfl rfl
  exact ⟨req, b, hrun, hb, r', hmsg, hstatus, hfields.trans hleft⟩

/-- A Status field without a status: every call succeeds, and the router refuses
the response. -/
theorem response_refused :
    let calls : List Call := [.init 200 1 16 usedMemory (some usedMemory),
      .addField (str "Status") (str "up") (by decide) (by decide)]
    ∃ req b, UnitResponse.run Req.new calls = some req ∧ req.response = some b ∧
      (responseMessage {} b.bytes).2 = .error .serviceUnavailable :=
  ⟨_, _, rfl, rfl, rfl⟩

end FreeUnit
