/-
The fields of a parsed request: their names, their values and their hashes.

The parser scans the name of a field byte by byte, computes its hash over the
lower case letters and remembers whether the name has an unsafe byte; the value
is taken without the blanks around it.  The tables of the field handlers look
a field up by the hash.

* `lookupField_of_parseReads` — a field of any reads goes to the handler of its
  name.
-/
import FreeUnit.FieldTable
import FreeUnit.RequestResume

namespace FreeUnit

open List

/-! ### Names and values -/

def isNameChar (c : UInt8) : Bool := fieldNameNormal c != 0

/-- A byte of a name that `discard_unsafe_fields` does not let through. -/
def isUnsafeChar (c : UInt8) : Bool := fieldNameNormal c == 1

structure NameFits (discardUnsafe : Bool) (name : Bytes) : Prop where
  nonempty : name ≠ []
  chars : ∀ c ∈ name, isNameChar c = true
  kept : (discardUnsafe && name.any isUnsafeChar) = false
  length : name.length ≤ httpMaxFieldName

structure ValueFits (value : Bytes) : Prop where
  chars : ∀ c ∈ value, isValueChar c = true
  noDelete : 0x7F ∉ value
  first : value.dropWhile isBlank = value
  last : trimValue value = value
  length : value.length ≤ httpMaxFieldValue

structure FieldFits (discardUnsafe : Bool) (f : HttpField) : Prop where
  name : NameFits discardUnsafe f.name
  value : ValueFits f.value
  eq_ofLine : f = .ofLine f.name f.value

variable {d : Bool} {rp rp' : RequestParse} {b rest : Bytes}

theorem FieldFits.wellHashed {f : HttpField} (h : FieldFits d f) : f.WellHashed := by
  rw [h.eq_ofLine]
  exact HttpField.wellHashed_ofLine _ _

theorem fieldNameNormal_cases : ∀ ch : UInt8, fieldNameNormal ch = 0 ∨
    fieldNameNormal ch = 1 ∧ ch = lowcase ch ∨
    fieldNameNormal ch ≠ 0 ∧ fieldNameNormal ch ≠ 1 ∧ fieldNameNormal ch = lowcase ch := by
  decide +kernel

/-- The scan of a name takes its bytes: it hashes them in lower case and
decides about the field by its unsafe bytes. -/
theorem scanName_eq (d : Bool) (b : Bytes) : ∀ (hash : UInt32) (skip : Bool),
    scanName d hash skip b = (((b.takeWhile isNameChar).map lowcase).foldl httpFieldHashChar hash,
        if (b.takeWhile isNameChar).any isUnsafeChar then d else skip, b.dropWhile isNameChar) := by
  induction b with
  | nil => exact fun _ _ => rfl
  | cons ch b ih => ?_
  intro hash skip
  rw [scanName]
  rcases fieldNameNormal_cases ch with h0 | ⟨h1, hlow⟩ | ⟨h0, h1, hlow⟩
  · -- the byte ends the name
    have hname : isNameChar ch = false := by rw [isNameChar, h0]; rfl
    rw [if_pos h0, takeWhile_cons, dropWhile_cons, hname]
    rfl
  · have hname : isNameChar ch = true := by rw [isNameChar, h1]; rfl
    have hany : isUnsafeChar ch = true := by rw [isUnsafeChar, h1]; rfl
    rw [if_neg (by rw [h1]; decide), if_pos h1, ih, takeWhile_cons, dropWhile_cons,
      hname, if_pos rfl, if_pos rfl, map_cons, foldl_cons, any_cons, hany,
      Bool.true_or, if_pos rfl, ite_self, ← hlow]
  have hname : isNameChar ch = true := by simpa [isNameChar] using h0
  have hany : isUnsafeChar ch = false := by simpa [isUnsafeChar] using h1
  rw [if_neg h0, if_neg h1, ih, takeWhile_cons, dropWhile_cons, hname, if_pos rfl,
    if_pos rfl, map_cons, foldl_cons, any_cons, hany, Bool.false_or, hlow]

/-- The bytes in front of what `dropWhile` leaves. -/
theorem take_length_sub_dropWhile (p : UInt8 → Bool) (l : Bytes) :
    l.take (l.length - (l.dropWhile p).length) = l.takeWhile p := by
  have hlen : l.length - (l.dropWhile p).length = (l.takeWhile p).length := by
    have := congrArg length (takeWhile_append_dropWhile (p := p) (l := l))
    rw [length_append] at this
    omega
  rw [hlen]
  nth_rewrite 2 [← takeWhile_append_dropWhile (p := p) (l := l)]
  exact take_left' rfl

/-- The value without its trailing blanks is a beginning of it. -/
theorem trimValue_prefix (v : Bytes) : trimValue v <+: v := rdropWhile_prefix _ _

theorem trimValue_trimValue (v : Bytes) : trimValue (trimValue v) = trimValue v :=
  rdropWhile_idempotent _ _

/-- The scanned value, without the blanks behind it. -/
theorem valueFits_trimValue {start : Bytes} (hfirst : start.dropWhile isBlank = start)
    (hdel : 0x7F ∉ start.takeWhile isValueChar)
    (hlen : (trimValue (start.takeWhile isValueChar)).length ≤ httpMaxFieldValue) :
    ValueFits (trimValue (start.takeWhile isValueChar)) := by
  have hpre := trimValue_prefix (start.takeWhile isValueChar)
  refine ⟨fun c hc => ?_, fun h => hdel (hpre.subset h), ?_, trimValue_trimValue _, hlen⟩
  · exact mem_takeWhile_imp (hpre.subset hc)
  · -- the first byte is the first byte of the scan
    cases hv : trimValue (start.takeWhile isValueChar) with
    | nil => rfl
    | cons c v => ?_
    have hpre' : c :: v <+: start := hv ▸ hpre.trans (List.takeWhile_prefix _)
    obtain ⟨more, rfl⟩ := hpre'
    have hc : ¬ isBlank c = true := by
      intro hc
      rw [cons_append, dropWhile_cons_of_pos hc] at hfirst
      have := congrArg length hfirst
      have hle := (dropWhile_suffix isBlank (l := v ++ more)).length_le
      rw [length_cons] at this
      omega
    exact dropWhile_cons_of_neg hc

/-! ### The handlers -/

structure FieldStart (rp : RequestParse) : Prop where
  name : rp.fieldName = []
  value : rp.fieldValue = []
  hash : rp.fieldHash = httpFieldHashInit
  skip : rp.skipField = false

def RequestParse.lineParts (rp : RequestParse) : Bytes × Bytes × Bytes × Bytes :=
  (rp.method, rp.target, rp.path, rp.args)

/-- A record whose fields all fit, behind a given request line. -/
structure FieldsFit (d : Bool) (line : Bytes × Bytes × Bytes × Bytes) (rp : RequestParse) :
    Prop where
  line : rp.lineParts = line
  fields : ∀ f ∈ rp.fields, FieldFits d f

def KeepsFields (d : Bool) (line : Bytes × Bytes × Bytes × Bytes) : ParseResult → Prop
  | .ok rp _ => FieldStart rp ∧ rp.discardUnsafeFields = d ∧ FieldsFit d line rp
  | .done rp _ => FieldsFit d line rp
  | _ => True

section Handlers

variable {d : Bool} {line : Bytes × Bytes × Bytes × Bytes} {rp : RequestParse}
  (hd : rp.discardUnsafeFields = d) (hfields : FieldsFit d line rp)
include hd hfields

theorem parseFieldEnd_fields
    (hfield : rp.fieldName ≠ [] → rp.skipField = false → FieldFits d rp.currentField)
    (b : Bytes) : KeepsFields d line (parseFieldEnd rp b) := by
  have hlf : ∀ s, KeepsFields d line (fieldLinefeed rp s) := by
    intro s
    rw [fieldLinefeed]
    split_ifs with hend hskip
    · exact hfields
    · exact ⟨⟨rfl, rfl, rfl, rfl⟩, hd, hfields.line, hfields.fields⟩
    refine ⟨⟨rfl, rfl, rfl, rfl⟩, hd, hfields.line, forall_mem_append.mpr ⟨hfields.fields, ?_⟩⟩
    intro f hf
    rw [mem_singleton.mp hf]
    exact hfield hend (by simpa using (not_or.mp hskip).1)
  rw [parseFieldEnd.eq_def]
  split
  · trivial
  split_ifs
  · split
    · trivial
    split_ifs
    · exact hlf _
    · trivial
  · exact hlf _
  · trivial

theorem parseFieldValue_fields (hvalue : rp.fieldValue = [])
    (hname : rp.skipField = false → NameFits d rp.fieldName)
    (hhash : httpFieldHashEnd rp.fieldHash = httpFieldHash rp.fieldName) (b : Bytes) :
    KeepsFields d line (parseFieldValue rp b) := by
  rw [parseFieldValue]
  split
  · trivial
  rename_i ch s hb
  have hfirst : (ch :: s).dropWhile isBlank = ch :: s := hb ▸ dropWhile_idempotent _ _
  rw [scanFieldValue, hvalue, length_nil, drop_zero]
  split
  · split_ifs <;> trivial
  rename_i c p hp
  rw [← hp, take_length_sub_dropWhile]
  dsimp only
  split_ifs with _ hdel hlen
  · trivial
  · trivial
  · trivial
  refine parseFieldEnd_fields ?_ ?_ ?_ _
  · exact hd
  · exact ⟨hfields.line, hfields.fields⟩
  refine fun _ hskip => ⟨hname hskip, ?_, ?_⟩
  · exact valueFits_trimValue hfirst hdel (not_lt.mp hlen)
  · rw [RequestParse.currentField, HttpField.ofLine, hhash]

theorem parseFieldName_fields (hstart : FieldStart rp) (b : Bytes) :
    KeepsFields d line (parseFieldName rp b) := by
  rw [parseFieldName, hstart.name, length_nil, drop_zero, scanName_eq, hstart.hash, hstart.skip, hd]
  dsimp only
  generalize hskip : (if (b.takeWhile isNameChar).any isUnsafeChar then d else false) = skip
  cases hrest : b.dropWhile isNameChar with
  | nil =>
    rw [fieldNameEnd]
    split_ifs <;> trivial
  | cons c p => ?_
  rw [fieldNameEnd, ← hrest, take_length_sub_dropWhile]
  split_ifs with _ hempty hlen
  · trivial
  · trivial
  · refine parseFieldValue_fields ?_ ?_ ?_ (fun hkept => ?_) ?_ _
    · exact hd
    · exact ⟨hfields.line, hfields.fields⟩
    · exact hstart.value
    have htake := take_length_sub_dropWhile isNameChar b
    · refine ⟨fun hnil => ?_, fun c hc => mem_takeWhile_imp hc, ?_, ?_⟩
      · have := congrArg length (htake.trans hnil)
        rw [length_take, length_nil] at this
        omega
      · obtain rfl : skip = false := hkept
        show (d && (b.takeWhile isNameChar).any isUnsafeChar) = false
        cases hany : (b.takeWhile isNameChar).any isUnsafeChar with
        | false => rw [Bool.and_false]
        | true => ?_
        rw [hany, if_pos rfl] at hskip
        rw [hskip, Bool.false_and]
      · show (b.takeWhile isNameChar).length ≤ _
        rw [← htake, length_take]
        omega
    · rfl
  · trivial
  refine parseFieldEnd_fields ?_ ?_ ?_ _
  · exact hd
  · exact ⟨hfields.line, hfields.fields⟩
  · exact fun hne => absurd hstart.name hne

end Handlers

theorem parseFieldEnd_done
    (h : parseFieldEnd rp b = .done rp' rest) : rp.fieldName = [] ∧ rp' = rp := by
  have hlf : ∀ s, fieldLinefeed rp s = .done rp' rest → rp.fieldName = [] ∧ rp' = rp := by
    intro s hs
    rw [fieldLinefeed] at hs
    by_cases hend : rp.fieldName = []
    · rw [if_pos hend] at hs
      cases hs
      exact ⟨hend, rfl⟩
    rw [if_neg hend] at hs
    cases hs
  rw [parseFieldEnd.eq_def] at h
  split at h
  · cases h
  split_ifs at h
  · split at h
    · cases h
    split_ifs at h
    exact hlf _ h
  · exact hlf _ h

theorem parseFieldValue_ne_done
    (hname : rp.fieldName ≠ []) : parseFieldValue rp b ≠ .done rp' rest := by
  intro h
  rw [parseFieldValue] at h
  split at h
  · cases h
  rw [scanFieldValue.eq_def] at h
  split at h
  · split_ifs at h
  dsimp only at h
  split_ifs at h
  exact hname (parseFieldEnd_done h).1

/-- The end of the header leaves the record as it was. -/
theorem parseFieldName_done (hstart : FieldStart rp)
    (h : parseFieldName rp b = .done rp' rest) : rp' = rp := by
  rw [parseFieldName, hstart.name, length_nil, drop_zero, scanName_eq, hstart.skip] at h
  dsimp only at h
  generalize hskip : (if (b.takeWhile isNameChar).any isUnsafeChar then
    rp.discardUnsafeFields else false) = skip at h
  cases hrest : b.dropWhile isNameChar with
  | nil =>
    rw [hrest, fieldNameEnd] at h
    split_ifs at h
  | cons c p => ?_
  rw [hrest, fieldNameEnd, ← hrest, take_length_sub_dropWhile] at h
  have htake := take_length_sub_dropWhile isNameChar b
  split_ifs at h with _ hempty hlen hne
  · -- a name before the colon
    refine absurd h (parseFieldValue_ne_done fun hnil => ?_)
    have := congrArg length (htake.trans hnil)
    rw [length_take, length_nil] at this
    omega
  have hnil : b.takeWhile isNameChar = [] := by
    rw [← htake, not_not.mp hne, take_zero]
  rw [hnil] at hskip
  obtain ⟨-, rfl⟩ := parseFieldEnd_done h
  rw [← hskip, ← hstart.skip]
  rfl

/-! ### A whole header -/

/-- **The rule for the fields of a header**: what the handler keeps from field to
field holds when it reaches the empty line. -/
theorem httpParseRequest_fields_rule {Inv : RequestParse → Prop}
    (hstep : ∀ {rp rp' : RequestParse} {b b' : Bytes}, Inv rp →
      parseFieldName rp b = .ok rp' b' → Inv rp') (n : ℕ) {rp rp' : RequestParse} {b rest : Bytes}
    (hn : b.length ≤ n) (hinv : Inv rp)
    (hparse : httpParseRequest .fieldName rp b = .done rp' rest) :
    ∃ rp1 b1, Inv rp1 ∧ parseFieldName rp1 b1 = .done rp' rest := by
  induction n using Nat.strong_induction_on generalizing rp rp' b rest with
  | _ n ih =>
    rw [httpParseRequest_eq, show callHandler .fieldName rp b = parseFieldName rp b from rfl]
      at hparse
    cases hr : parseFieldName rp b with
    | ok rp1 b1 =>
      rw [hr] at hparse
      have hshort := callHandler_shortens .fieldName rp b rp1 b1 (.inl hr)
      exact ih b1.length (by omega) le_rfl (hstep hinv hr) hparse
    | done rp1 b1 =>
      rw [hr] at hparse
      cases hparse
      exact ⟨rp, b, hinv, hr⟩
    | again | error =>
      rw [hr] at hparse
      cases hparse

structure FieldsRead (d : Bool) (line : Bytes × Bytes × Bytes × Bytes) (rp : RequestParse) :
    Prop where
  start : FieldStart rp
  discard : rp.discardUnsafeFields = d
  fits : FieldsFit d line rp

theorem fieldsRead_of_fields {line : Bytes × Bytes × Bytes × Bytes} (h : FieldsRead d line rp)
    (hparse : httpParseRequest .fieldName rp b = .done rp' rest) : FieldsRead d line rp' := by
  obtain ⟨rp1, b1, h1, hdone⟩ := httpParseRequest_fields_rule
    (fun {rp rp' b b'} h hok => by
      have hkeeps := parseFieldName_fields h.discard h.fits h.start b
      rw [hok] at hkeeps
      exact (⟨hkeeps.1, hkeeps.2.1, hkeeps.2.2⟩ : FieldsRead d line rp')) _ le_rfl h hparse
  rw [parseFieldName_done h1.start hdone]
  exact h1

/-- A complete request has a complete line, and its fields follow it. -/
theorem line_of_parse {rp0 : RequestParse} {s : Bytes}
    (h : httpParseRequest .requestLine rp0 s = .done rp rest) :
    ∃ method t l rest' rp', scanLine s = (method, t, .line l rest') ∧
      rp0.setLine method t l = some rp' ∧
      httpParseRequest .fieldName rp' rest' = .done rp rest := by
  rcases scanLine_ends s with ⟨g, hg⟩ | ⟨c, hc⟩ | ⟨method, t, l, rest', hline⟩
  · rw [httpParseRequest_again _ hg] at h
    cases h
  · obtain ⟨rp', herror⟩ := httpParseRequest_lineError rp0 hc
    rw [herror] at h
    cases h
  rw [httpParseRequest_line _ hline] at h
  cases hset : rp0.setLine method t l with
  | none =>
    rw [hset] at h
    cases h
  | some rp' => ?_
  rw [hset] at h
  exact ⟨method, t, l, rest', rp', hline, hset, h⟩

/-- The record of a complete request: what its line has left, and fields the
parser would read again. -/
theorem fieldsFit_of_line {f e : Bool} {method t rest' : Bytes} {l : RequestLine}
    (hset : (httpParseRequestInit d f e).setLine method t l = some rp')
    (h : httpParseRequest .fieldName rp' rest' = .done rp rest) : FieldsFit d rp'.lineParts rp := by
  obtain ⟨hname, hvalue, hhash, hfields, hskip, hdiscard⟩ := setLine_keeps hset
  have hnone : rp'.fields = [] := hfields
  exact (fieldsRead_of_fields ⟨⟨hname, hvalue, hhash, hskip⟩, hdiscard, rfl, by simp [hnone]⟩ h).fits

/-- **The fields of a parsed request** are fields the parser would read again. -/
theorem fieldFits_of_parse {f e : Bool} {s : Bytes}
    (h : httpParseRequest .requestLine (httpParseRequestInit d f e) s = .done rp rest) :
    ∀ f ∈ rp.fields, FieldFits d f := by
  obtain ⟨method, t, l, rest', rp', -, hset, hparse⟩ := line_of_parse h
  exact (fieldsFit_of_line hset hparse).fields

theorem wellHashed_of_parse {f e : Bool} {s : Bytes}
    (h : httpParseRequest .requestLine (httpParseRequestInit d f e) s = .done rp rest) :
    ∀ f ∈ rp.fields, f.WellHashed := fun f hf => (fieldFits_of_parse h f hf).wellHashed

/-- **Dispatch.**  However the header is split over reads, a field goes to the
handler of its name in any letter case, and to no other. -/
theorem lookupField_of_parseReads {η : Type*} {table : List (Bytes × η)} {f e : Bool}
    {reads : List Bytes}
    (hnodup : (table.map fun e => e.1.map lowcase).Nodup)
    (hparse : parseReads { rp := httpParseRequestInit d f e } reads = .stop (.done rp rest))
    {field : HttpField} (hfield : field ∈ rp.fields) (h : η) :
    lookupField table field = some h ↔
      ∃ name, (name, h) ∈ table ∧ strcasestrEq field.name name := by
  obtain ⟨a, ha, hab⟩ := done_of_parseReads hparse
  rw [hab.eq_withFlags] at hfield
  exact lookupField_eq_some_iff hnodup (wellHashed_of_parse ha field hfield) h

/-- A name in two reads. -/
theorem lookupField_hostInReads :
    let table := [(str "Host", 0), (str "Hosts", 1)]
    let field := HttpField.ofLine (str "hOST") (str "x")
    lookupField table field = some 0 ↔
      ∃ name, (name, 0) ∈ table ∧ strcasestrEq field.name name := by
  intro table field
  let line : RequestParse :=
    { method := str "GET", target := str "/", path := str "/", version := str "HTTP/1.1",
      fields := [field] }
  have hparse : parseReads { rp := httpParseRequestInit false false false }
      [str "GET / HTTP/1.1\nhO", str "ST: x\n\n"] = .stop (.done line []) := by decide
  exact lookupField_of_parseReads (by decide) hparse mem_cons_self 0

/-- **What is accepted is well formed**: names and values have allowed bytes only,
are within their limits and have no blanks around them. -/
theorem fieldFits_of_parseReads {f e : Bool} {reads : List Bytes}
    (hparse : parseReads { rp := httpParseRequestInit d f e } reads = .stop (.done rp rest)) :
    ∀ field ∈ rp.fields, FieldFits d field := by
  obtain ⟨a, ha, hab⟩ := done_of_parseReads hparse
  rw [hab.eq_withFlags]
  exact fun field hfield => fieldFits_of_parse ha field hfield

theorem fieldFits_of_parseReads_a : FieldFits false (.ofLine (str "a") (str "b")) :=
  @fieldFits_of_parseReads false
    { method := str "G", target := str "/", path := str "/", version := str "HTTP/1.1",
      fields := [.ofLine (str "a") (str "b")] } [] false false
    [str "G / HTTP/1.1\na", str ": b\n\n"] (by decide) _ mem_cons_self

end FreeUnit
