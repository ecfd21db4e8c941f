/-
Header fields written as lines, and read back by the parser.

Requests to a peer and responses to a client are written the same way: a line
for the request or the status, a line for each field, an empty line.

* `httpParseRequest_fieldLines` — a header section is read back as its fields,
  in their order, and nothing behind it is touched.
-/
import FreeUnit.ParsedFields

namespace FreeUnit

open List

def HttpField.line (f : HttpField) : Bytes := f.name ++ str ": " ++ f.value ++ crlf

def fieldLines (fields : List HttpField) : Bytes := fields.flatMap HttpField.line

/-- The name and the value of a field, without its hash and its flags. -/
def HttpField.pair (f : HttpField) : Bytes × Bytes := (f.name, f.value)

/-! ### Texts of field names and values -/

/-- A text the parser takes as a name, whatever it discards. -/
def isSafeName (name : Bytes) : Bool :=
  name != [] && name.all (fun c => isNameChar c && !isUnsafeChar c) &&
    decide (name.length ≤ httpMaxFieldName)

theorem nameFits_of_isSafeName (d : Bool) {name : Bytes} (h : isSafeName name = true) :
    NameFits d name := by
  simp only [isSafeName, Bool.and_eq_true, bne_iff_ne, all_eq_true, Bool.not_eq_true',
    decide_eq_true_eq] at h
  obtain ⟨⟨hne, hchars⟩, hlen⟩ := h
  refine ⟨hne, fun c hc => (hchars c hc).1, ?_, hlen⟩
  rw [Bool.and_eq_false_iff, any_eq_false]
  exact Or.inr fun c hc => by simp [(hchars c hc).2]

theorem valueFits_of_visible {value : Bytes} (h : ∀ c ∈ value, 0x21 ≤ c ∧ c ≠ 0x7F)
    (hlen : value.length ≤ httpMaxFieldValue) : ValueFits value := by
  have hblank : ∀ c : UInt8, 0x21 ≤ c → isBlank c = false := by grind [isBlank]
  have hchar : ∀ c : UInt8, 0x21 ≤ c → isValueChar c = true := by grind [isValueChar]
  refine ⟨fun c hc => hchar c (h c hc).1, fun hdel => (h _ hdel).2 rfl, ?_, ?_, hlen⟩
  · rw [dropWhile_eq_self_iff]
    intro hl
    simp [hblank _ (h _ (getElem_mem hl)).1]
  · rw [trimValue, rdropWhile_eq_self_iff]
    intro hne
    simp [hblank _ (h _ (getLast_mem hne)).1]

/-! ### Reading a line back -/

theorem scanFieldValue_of_crlf {rp : RequestParse} {start p : Bytes} {c : UInt8}
    (hempty : rp.fieldValue = []) (hdrop : start.dropWhile isValueChar = c :: p)
    (hc : isCrlf c = true) (hdel : 0x7F ∉ start.takeWhile isValueChar)
    (hlen : (trimValue (start.takeWhile isValueChar)).length ≤ httpMaxFieldValue) :
    scanFieldValue rp start =
      parseFieldEnd { rp with fieldValue := trimValue (start.takeWhile isValueChar) }
        (c :: p) := by
  rw [scanFieldValue, hempty, length_nil, drop_zero, hdrop]
  dsimp only
  rw [← hdrop, take_length_sub_dropWhile, if_neg (by simp [hc]), if_neg hdel,
    if_neg (not_lt.mpr hlen)]

section Lines

variable {rp : RequestParse} (hstart : FieldStart rp) {name value : Bytes}
include hstart

section

variable (hdiscard : rp.discardFields = false)
include hdiscard

/-- The line feed stores the field and resets the record. -/
theorem fieldLinefeed_stores (hname : name ≠ []) (rest : Bytes) :
    fieldLinefeed
        { rp with
          fieldHash := (name.map lowcase).foldl httpFieldHashChar httpFieldHashInit,
          fieldName := name, fieldValue := value } rest =
      .ok { rp with fields := rp.fields ++ [.ofLine name value] } rest := by
  rw [fieldLinefeed, if_neg hname, if_neg (by simp [hstart.skip, hdiscard])]
  simp only [RequestParse.currentField, HttpField.ofLine, httpFieldHash, hstart.name,
    hstart.value, hstart.hash, hstart.skip]

theorem parseFieldValue_line (hname : name ≠ []) (hvalue : ValueFits value) (rest : Bytes) :
    parseFieldValue
        { rp with
          fieldHash := (name.map lowcase).foldl httpFieldHashChar httpFieldHashInit,
          fieldName := name } (0x20 :: (value ++ crlf ++ rest)) =
      .ok { rp with fields := rp.fields ++ [.ofLine name value] } rest := by
  -- the blank behind the colon is the only one
  have hblank : (0x20 :: (value ++ crlf ++ rest)).dropWhile isBlank = value ++ crlf ++ rest := by
    rw [dropWhile_cons_of_pos (by decide)]
    cases value with
    | nil => rfl
    | cons c v => ?_
    refine dropWhile_cons_of_neg fun hc => ?_
    have hlen := congrArg length hvalue.first
    rw [dropWhile_cons_of_pos hc, length_cons] at hlen
    have hle := (dropWhile_suffix isBlank (l := v)).length_le
    omega
  have hdrop : (value ++ crlf ++ rest).dropWhile isValueChar = crlf ++ rest := by
    rw [append_assoc, dropWhile_append_of_pos hvalue.chars]
    rfl
  have htake : (value ++ crlf ++ rest).takeWhile isValueChar = value := by
    rw [append_assoc, takeWhile_append_of_pos hvalue.chars]
    exact append_nil value
  obtain ⟨ch, s, hs⟩ : ∃ ch s, value ++ crlf ++ rest = ch :: s := by
    cases value with
    | nil | cons => exact ⟨_, _, rfl⟩
  rw [parseFieldValue_of_cons (hblank.trans hs), ← hs]
  refine (scanFieldValue_of_crlf ?_ hdrop rfl ?_ ?_).trans ?_
  · exact hstart.value
  · rw [htake]
    exact hvalue.noDelete
  · rw [htake, hvalue.last]
    exact hvalue.length
  · rw [htake, hvalue.last]
    exact fieldLinefeed_stores hstart hdiscard hname rest

/-- **A line is read back as its field.** -/
theorem parseFieldName_line (hname : NameFits rp.discardUnsafeFields name)
    (hvalue : ValueFits value) (rest : Bytes) :
    parseFieldName rp ((HttpField.ofLine name value).line ++ rest) =
      .ok { rp with fields := rp.fields ++ [.ofLine name value] } rest := by
  have hline : (HttpField.ofLine name value).line ++ rest =
      name ++ 0x3A :: 0x20 :: (value ++ crlf ++ rest) := by
    simp [HttpField.line, HttpField.ofLine, show str ": " = [0x3A, 0x20] by decide]
  have htake : (name ++ 0x3A :: 0x20 :: (value ++ crlf ++ rest)).takeWhile isNameChar = name := by
    rw [takeWhile_append_of_pos hname.chars, takeWhile_cons_of_neg (by decide)]
    exact append_nil name
  have hdrop : (name ++ 0x3A :: 0x20 :: (value ++ crlf ++ rest)).dropWhile isNameChar =
      0x3A :: 0x20 :: (value ++ crlf ++ rest) := by
    rw [dropWhile_append_of_pos hname.chars, dropWhile_cons_of_neg (by decide)]
  have hskip : (if name.any isUnsafeChar then rp.discardUnsafeFields else false) = false := by
    have hkept := hname.kept
    cases hany : name.any isUnsafeChar with
    | false => rfl
    | true =>
      rw [hany, Bool.and_true] at hkept
      exact hkept
  rw [hline, parseFieldName, hstart.name, length_nil, drop_zero, scanName_eq, htake,
    hdrop, hstart.hash, hstart.skip, hskip, fieldNameEnd, if_pos rfl]
  have hlen : (name ++ 0x3A :: 0x20 :: (value ++ crlf ++ rest)).length -
      (0x3A :: 0x20 :: (value ++ crlf ++ rest)).length = name.length := by
    rw [length_append, Nat.add_sub_cancel]
  rw [hlen, if_neg (by simp [hname.nonempty]), if_neg (not_lt.mpr hname.length),
    take_left' rfl]
  have hvalueLine := parseFieldValue_line hstart hdiscard hname.nonempty hvalue rest
  simp only [hstart.name, hstart.value, hstart.hash, hstart.skip] at hvalueLine ⊢
  exact hvalueLine

end

theorem parseFieldName_end (rest : Bytes) : parseFieldName rp (crlf ++ rest) = .done rp rest := by
  rw [parseFieldName, hstart.name, length_nil, drop_zero, scanName_eq]
  show fieldNameEnd rp (crlf ++ rest) rp.fieldHash rp.skipField (0x0D :: 0x0A :: rest) = _
  rw [fieldNameEnd, if_neg (by decide), if_neg (by simp [crlf])]
  show fieldLinefeed rp rest = _
  rw [fieldLinefeed, if_pos hstart.name]

end Lines

/-- **A header section is read back**: the fields come out in their order, and
the bytes behind the empty line are left. -/
theorem httpParseRequest_fieldLines (body : Bytes) (fields : List HttpField) {rp : RequestParse}
    (hstart : FieldStart rp) (hdiscard : rp.discardFields = false)
    (hfits : ∀ f ∈ fields, NameFits rp.discardUnsafeFields f.name ∧ ValueFits f.value) :
    httpParseRequest .fieldName rp (fieldLines fields ++ crlf ++ body) =
      .done { rp with fields := rp.fields ++ fields.map fun f => .ofLine f.name f.value } body := by
  induction fields generalizing rp with
  | nil =>
    rw [httpParseRequest_eq, show callHandler .fieldName rp (fieldLines [] ++ crlf ++ body) =
      .done rp body from parseFieldName_end hstart body, map_nil, append_nil]
    rfl
  | cons f fields ih => ?_
  obtain ⟨hname, hvalue⟩ := hfits f mem_cons_self
  have hcall : callHandler .fieldName rp (fieldLines (f :: fields) ++ crlf ++ body) =
      .ok { rp with fields := rp.fields ++ [.ofLine f.name f.value] }
        (fieldLines fields ++ crlf ++ body) := by
    have := parseFieldName_line hstart hdiscard hname hvalue (fieldLines fields ++ crlf ++ body)
    simpa [fieldLines, HttpField.line, HttpField.ofLine, callHandler] using this
  rw [httpParseRequest_eq, hcall]
  have hstart' : FieldStart { rp with fields := rp.fields ++ [.ofLine f.name f.value] } :=
    ⟨hstart.name, hstart.value, hstart.hash, hstart.skip⟩
  have hrest := ih hstart' hdiscard fun g hg => hfits g (mem_cons_of_mem _ hg)
  rw [append_assoc rp.fields] at hrest
  exact hrest

end FreeUnit
