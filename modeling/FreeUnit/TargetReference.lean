/-
The reference normalisation of a request target, and that
`httpParseComplexTarget` computes it.

The reference is a pipeline of three stages over the part of the target
before the query or fragment: `lexPath` finds the percent escapes,
`decodePath` replaces them, and `Segments.resolve` resolves the segments
between slashes.  With encoded slashes enabled an escaped slash or percent
sign is left as it was written, so it never becomes a separator.

* `httpParseComplexTarget_reference` — the automaton on a whole target: the
  reference result, the shape of the path, and exactly when it fails.

The automaton interrupts a segment at any byte, so the induction carries the
stack of closed segments and the open segment, from which the output buffer
(`outBuf`) and the path state (`stateOf`) are both functions.
-/
import FreeUnit.ComplexTarget
import FreeUnit.PathSegments

namespace FreeUnit

open Segments List

/-! ### The reference -/

def pathPart (target : Bytes) : Bytes := target.takeWhile fun c => c != 0x3F && c != 0x23

/-- The value of the escape with the digits `a` and `b`. -/
def escapeValue (a b : UInt8) : Option UInt8 :=
  match hexDigit a, hexDigit b with
  | some high, some low => some (high <<< 4 + low)
  | _, _ => none

/-- A byte of the path, or an escape with its two digits and its value. -/
inductive PathItem where
  | plain (c : UInt8)
  | escape (a b c : UInt8)
  deriving DecidableEq, Repr

/-- The items of a path; `none` when it holds a bad percent escape. -/
def lexPath : Bytes → Option (List PathItem)
  | [] => some []
  | c :: s =>
    if c = 0x25 then
      match s with
      | a :: b :: s' =>
        match escapeValue a b with
        | some v => (lexPath s').map (.escape a b v :: ·)
        | none => none
      | _ => none
    else (lexPath s).map (.plain c :: ·)

/-- The bytes an item stands for.  With encoded slashes an escaped slash or
percent sign is kept as written. -/
def PathItem.bytes (encodedSlashes : Bool) : PathItem → Bytes
  | .plain c => [c]
  | .escape a b c => if encodedSlashes ∧ (c = 0x2F ∨ c = 0x25) then [0x25, a, b] else [c]

def DecodesNul (items : List PathItem) : Prop := ∃ a b, PathItem.escape a b 0 ∈ items

def PathItem.isNul : PathItem → Bool
  | .plain _ => false
  | .escape _ _ c => c == 0

/-- The decoded path; `none` for a bad escape or an escaped NUL. -/
def decodePath (encodedSlashes : Bool) (path : Bytes) : Option Bytes :=
  (lexPath path).bind fun items =>
    if items.any PathItem.isNul then none else some (items.flatMap (·.bytes encodedSlashes))

def segKind (seg : Bytes) : Kind :=
  if seg = [] ∨ seg = [0x2E] then .stay else if seg = [0x2E, 0x2E] then .up else .name

def pathSegments (path : Bytes) : List Bytes := (path.drop 1).splitOn 0x2F

/-- The text of resolved segments, which come the last one first. -/
def renderPath (segs : List Bytes) : Bytes := join 0x2F segs.reverse

def referencePath (encodedSlashes : Bool) (target : Bytes) : Option Bytes :=
  (decodePath encodedSlashes (pathPart target)).bind fun d =>
    (resolve segKind [] (pathSegments d)).map renderPath

/-- The query of a target, when it has one before any fragment. -/
def argsPart (target : Bytes) : Option Bytes :=
  match target.dropWhile (fun c => c != 0x3F && c != 0x23) with
  | [] => none
  | c :: rest => if c = 0x3F then some (rest.takeWhile (· != 0x23)) else none

/-! ### Decoding, one item at a time -/

variable {c a b v high low : UInt8} {stack : List Bytes} {es : Bool}

theorem lexPath_plain (hc : c ≠ 0x25) (s : Bytes) :
    lexPath (c :: s) = (lexPath s).map (.plain c :: ·) := by
  rw [lexPath.eq_def]
  simp [hc]

theorem lexPath_escape (a b : UInt8) (s : Bytes) : lexPath (0x25 :: a :: b :: s) =
      (escapeValue a b).bind fun v => (lexPath s).map (.escape a b v :: ·) := by
  rw [lexPath.eq_def]
  cases h : escapeValue a b <;> simp [h]

@[simp] theorem PathItem.isNul_plain (c : UInt8) : (PathItem.plain c).isNul = false := rfl

@[simp] theorem PathItem.isNul_escape (a b c : UInt8) :
    (PathItem.escape a b c).isNul = (c == 0) := rfl

@[simp] theorem PathItem.bytes_plain (es : Bool) (c : UInt8) :
    (PathItem.plain c).bytes es = [c] := rfl

@[simp] theorem decodePath_nil (es : Bool) : decodePath es [] = some [] := rfl

theorem decodePath_plain (es : Bool) (hc : c ≠ 0x25) (s : Bytes) :
    decodePath es (c :: s) = (decodePath es s).map (c :: ·) := by
  rw [decodePath, decodePath, lexPath_plain hc]
  cases lexPath s with
  | none => rfl
  | some items => ?_
  simp only [Option.map_some, Option.bind_some, any_cons, PathItem.isNul_plain, Bool.false_or]
  split <;> simp

theorem decodePath_escape (es : Bool) (hv : escapeValue a b = some v) (s : Bytes) :
    decodePath es (0x25 :: a :: b :: s) = if v = 0 then none
      else (decodePath es s).map ((PathItem.escape a b v).bytes es ++ ·) := by
  rw [decodePath, decodePath, lexPath_escape, hv]
  cases lexPath s with
  | none => simp
  | some items => ?_
  by_cases h0 : v = 0
  · simp [h0]
  simp only [Option.bind_some, Option.map_some, any_cons, PathItem.isNul_escape,
    beq_false_of_ne h0, Bool.false_or, if_neg h0]
  split <;> simp

theorem decodePath_bad (es : Bool) (hv : escapeValue a b = none) (s : Bytes) :
    decodePath es (0x25 :: a :: b :: s) = none := by
  rw [decodePath, lexPath_escape, hv]
  rfl

/-! ### The value of an escape -/

theorem escapeValue_eq_some (h : escapeValue a b = some v) :
    ∃ high low, hexDigit a = some high ∧ hexDigit b = some low ∧ v = high <<< 4 + low := by
  unfold escapeValue at h
  split at h
  · rename_i high low ha hb
    exact ⟨high, low, ha, hb, (Option.some.inj h).symm⟩
  · exact absurd h (by simp)

theorem toNat_shiftLeft_add (hh : high < 16) (hl : low < 16) :
    (high <<< 4 + low).toNat = 16 * high.toNat + low.toNat := by
  have h1 : high.toNat < 16 := UInt8.lt_iff_toNat_lt.mp hh
  have h2 : low.toNat < 16 := UInt8.lt_iff_toNat_lt.mp hl
  have hs : (high <<< 4).toNat = 16 * high.toNat := by
    rw [UInt8.toNat_shiftLeft, show (4 : UInt8).toNat % 8 = 4 from rfl, Nat.shiftLeft_eq]
    omega
  rw [UInt8.toNat_add, hs]
  omega

theorem escape_digits (ha : hexDigit a = some high)
    (hb : hexDigit b = some low) (hv : v = high <<< 4 + low) :
    high = UInt8.ofNat (v.toNat / 16) ∧ low = UInt8.ofNat (v.toNat % 16) := by
  have hl : low.toNat < 16 := UInt8.lt_iff_toNat_lt.mp (hexDigit_lt hb)
  have hn := toNat_shiftLeft_add (hexDigit_lt ha) (hexDigit_lt hb)
  rw [hv, hn, show (16 * high.toNat + low.toNat) / 16 = high.toNat by omega,
    show (16 * high.toNat + low.toNat) % 16 = low.toNat by omega]
  simp

/-- A digit of value below 10 is a decimal one. -/
theorem eq_of_hexDigit_lt (h : hexDigit a = some v) (hv : v < 10) : a = v + 0x30 := by
  have key : ∀ a : UInt8, (hexDigit a).all fun v => v < 10 → a = v + 0x30 := by grind [hexDigit, isDigit]
  simpa [h, hv] using key a

/-- An escaped slash or percent sign has the first digit `2`. -/
theorem first_digit_of_kept (ha : hexDigit a = some high)
    (hb : hexDigit b = some low) (hv : v = high <<< 4 + low) (h : v = 0x2F ∨ v = 0x25) :
    a = 0x32 := by
  have h2 : high = 2 := by
    rw [(escape_digits ha hb hv).1]
    rcases h with rfl | rfl <;> rfl
  subst h2
  exact eq_of_hexDigit_lt ha (by decide)

/-- The second digit of `%25` is `5`. -/
theorem second_digit_of_percent (ha : hexDigit a = some high)
    (hb : hexDigit b = some low) (hv : v = high <<< 4 + low) (h : v = 0x25) : b = 0x35 := by
  have h5 : low = 5 := by
    rw [(escape_digits ha hb hv).2, h]
    rfl
  subst h5
  exact eq_of_hexDigit_lt hb (by decide)

/-- The second digit of an escape is decimal exactly when the low half of its
value is below 10. -/
theorem isDigit_low (ha : hexDigit a = some high)
    (hb : hexDigit b = some low) (hv : v = high <<< 4 + low) :
    isDigit b = decide (v.toNat % 16 < 10) := by
  have key : ∀ b : UInt8, (hexDigit b).all fun low => isDigit b == decide (low.toNat < 10) := by
    decide +kernel
  have hdigit : isDigit b = decide (low.toNat < 10) := by simpa [hb] using key b
  have hlow : (UInt8.ofNat (v.toNat % 16)).toNat = v.toNat % 16 :=
    UInt8.toNat_ofNat_of_lt (show v.toNat % 16 < 256 by omega)
  rw [hdigit, (escape_digits ha hb hv).2, hlow]

/-! ### The automaton between bytes -/

def stateOf (cur : Bytes) : PathState :=
  if cur = [] then .slash
  else if cur = [0x2E] then .dot
  else if cur = [0x2E, 0x2E] then .dotDot
  else .normal

/-- The output buffer, reversed, for the closed segments `stack` and the open
segment `cur`. -/
def outBuf (stack : List Bytes) (cur : Bytes) : Bytes := (renderPath (cur :: stack)).reverse

/-- What the automaton keeps true of the closed segments. -/
def StackOk (stack : List Bytes) : Prop := AllNames segKind stack ∧ ∀ s ∈ stack, 0x2F ∉ s

theorem outBuf_eq (stack : List Bytes) (cur : Bytes) :
    outBuf stack cur = cur.reverse ++ 0x2F :: (renderPath stack).reverse := by
  simp [outBuf, renderPath]

@[simp] theorem renderPath_cons (cur : Bytes) (stack : List Bytes) :
    renderPath (cur :: stack) = (outBuf stack cur).reverse := by
  simp [outBuf]

theorem outBuf_snoc (stack : List Bytes) (cur : Bytes) (c : UInt8) :
    outBuf stack (cur ++ [c]) = c :: outBuf stack cur := by
  simp [outBuf_eq]

theorem outBuf_push (stack : List Bytes) (cur : Bytes) :
    outBuf (cur :: stack) [] = 0x2F :: outBuf stack cur := by
  simp [outBuf_eq, renderPath]

/-- The open segments that decide the path state. -/
theorem segment_cases (cur : Bytes) : cur = [] ∨ cur = [0x2E] ∨ cur = [0x2E, 0x2E] ∨
      (stateOf cur = .normal ∧ segKind cur = .name) := by
  by_cases h1 : cur = []
  · exact Or.inl h1
  by_cases h2 : cur = [0x2E]
  · exact Or.inr (Or.inl h2)
  by_cases h3 : cur = [0x2E, 0x2E]
  · exact Or.inr (Or.inr (Or.inl h3))
  · simp [stateOf, segKind, h1, h2, h3]

theorem stateOf_snoc_ne_dot (cur : Bytes) (hc : c ≠ 0x2E) : stateOf (cur ++ [c]) = .normal := by
  have h2 : cur ++ [c] ≠ [0x2E] := fun h => hc (by simpa using congrArg getLast? h)
  have h3 : cur ++ [c] ≠ [0x2E, 0x2E] := fun h => hc (by simpa using congrArg getLast? h)
  simp [stateOf, h2, h3]

variable {cur : Bytes}

theorem stateOf_snoc_of_normal (h : stateOf cur = .normal) (c : UInt8) :
    stateOf (cur ++ [c]) = .normal := by
  by_cases hc : c = 0x2E
  · subst hc
    have h1 : cur ≠ [] := by rintro rfl; simp [stateOf] at h
    have h2 : cur ≠ [0x2E] := by rintro rfl; simp [stateOf] at h
    have h3 : cur ++ [0x2E] ≠ [0x2E, 0x2E] := fun h => h2 (by simpa using append_cancel_right h)
    simp [stateOf, h1, h3]
  · exact stateOf_snoc_ne_dot cur hc

/-- The backward scan deletes exactly the last closed segment. -/
theorem dropSegment_outBuf (hs : StackOk stack) :
    dropSegment (outBuf stack [0x2E, 0x2E]) = stack.tail?.map (outBuf · []) := by
  rcases stack with _ | ⟨top, below⟩
  · rfl
  have hne : top ≠ [] := by
    rintro rfl
    simpa [segKind] using hs.1 [] (by simp)
  obtain ⟨last, body, hrev⟩ := exists_cons_of_ne_nil (reverse_ne_nil_iff.mpr hne)
  have hbody : ∀ c ∈ body, (c != 0x2F) = true := by
    intro c hc
    have hmem : c ∈ top := by
      rw [← mem_reverse, hrev]
      exact mem_cons_of_mem _ hc
    have hne : c ≠ 0x2F := fun h => hs.2 top (by simp) (h ▸ hmem)
    simpa using hne
  have hbuf : (outBuf (top :: below) [0x2E, 0x2E]).drop 4 = body ++ outBuf below [] := by
    simp [outBuf_eq, renderPath, hrev]
  rw [dropSegment, hbuf, dropWhile_append_of_pos hbody, tail?_cons, Option.map_some, outBuf_eq]
  rfl

/-! ### One byte of a path -/

/-- A byte that is not special joins the open segment. -/
theorem complexPathChar_plain (hslash : c ≠ 0x2F) (hquote : c ≠ 0x25)
    (hargs : c ≠ 0x3F) (hhash : c ≠ 0x23) (stack : List Bytes) (cur : Bytes) :
    complexPathChar (stateOf cur) (outBuf stack cur) c =
      .next (.path (stateOf (cur ++ [c]))) (outBuf stack (cur ++ [c])) := by
  rw [outBuf_snoc]
  by_cases hdot : c = 0x2E
  · subst hdot
    rcases segment_cases cur with rfl | rfl | rfl | ⟨hn, -⟩
    · rfl
    · rfl
    · rfl
    rw [hn, stateOf_snoc_of_normal hn]
    rfl
  rw [stateOf_snoc_ne_dot cur hdot]
  cases stateOf cur <;> simp [complexPathChar, hslash, hquote, hargs, hhash, hdot]

theorem complexPathChar_slash (hs : StackOk stack) (cur : Bytes) :
    complexPathChar (stateOf cur) (outBuf stack cur) 0x2F = match close segKind stack cur with
      | none => .invalid
      | some stack' => .next (.path .slash) (outBuf stack' []) := by
  rcases segment_cases cur with rfl | rfl | rfl | ⟨hn, hk⟩
  · rfl
  · rw [outBuf_eq stack [0x2E]]
    simp [complexPathChar, stateOf, httpIsNormal, close, segKind, outBuf_eq]
  · rcases stack with _ | ⟨top, below⟩ <;>
      simp [complexPathChar, stateOf, httpIsNormal, dropSegment_outBuf hs, close, segKind]
  rw [hn]
  simp only [close, hk]
  rw [outBuf_push]
  rfl

/-- The path ends: at the end of the target, at its query and at its fragment
the last segment is closed in the same way. -/
theorem complexPathChar_end (hs : StackOk stack) (cur : Bytes) :
    (∀ q, complexEnd (.path (stateOf cur)) (outBuf stack cur) q =
      (closeLast segKind stack cur).map fun segs => ⟨renderPath segs, none, q⟩) ∧
    (complexPathChar (stateOf cur) (outBuf stack cur) 0x3F = match closeLast segKind stack cur with
      | none => .invalid | some segs => .args (renderPath segs).reverse) ∧
    (complexPathChar (stateOf cur) (outBuf stack cur) 0x23 = match closeLast segKind stack cur with
      | none => .invalid | some segs => .done (renderPath segs).reverse) := by
  have hdot : (outBuf stack [0x2E]).tail = outBuf stack [] := by simp [outBuf_eq]
  rcases segment_cases cur with rfl | rfl | rfl | ⟨hn, hk⟩
  · simp [complexEnd, complexPathChar, stateOf, httpIsNormal, closeLast, close, segKind]
  · simp [complexEnd, complexPathChar, stateOf, httpIsNormal, closeLast, close, segKind, hdot]
  · rcases stack with _ | ⟨top, below⟩ <;>
      simp [complexEnd, complexPathChar, stateOf, httpIsNormal, dropSegment_outBuf hs, closeLast,
        close, segKind]
  rw [hn]
  simp [complexEnd, complexPathChar, httpIsNormal, closeLast, hk]

/-! ### One escape -/

theorem ne_of_hexDigit_eq_none {x : UInt8} (h : hexDigit c = some v) (hx : hexDigit x = none) :
    c ≠ x := by
  rintro rfl
  rw [hx] at h
  cases h

/-- The bytes of an escape that do not separate segments. -/
theorem slash_notMem_bytes (hv : escapeValue a b = some v)
    (h : ¬ (v = 0x2F ∧ es = false)) : 0x2F ∉ (PathItem.escape a b v).bytes es := by
  obtain ⟨high, low, ha, hb, -⟩ := escapeValue_eq_some hv
  have ha' : a ≠ 0x2F := ne_of_hexDigit_eq_none ha (by decide)
  have hb' : b ≠ 0x2F := ne_of_hexDigit_eq_none hb (by decide)
  by_cases hes : es = true ∧ (v = 0x2F ∨ v = 0x25)
  · simp [PathItem.bytes, hes, ha'.symm, hb'.symm]
  have hne : v ≠ 0x2F := by
    rintro rfl
    cases es <;> simp at h hes
  simp [PathItem.bytes, hes, hne.symm]

/-- **The second digit of an escape.**  NUL is refused, a decoded slash acts
as a slash, and the bytes of any other escape join the open segment. -/
theorem complexQuotedChar_escape (es : Bool)
    (ha : hexDigit a = some high) (hb : hexDigit b = some low) (hv : v = high <<< 4 + low)
    (stack : List Bytes) (cur : Bytes) :
    complexQuotedChar es (stateOf cur) high (outBuf stack cur) b = if v = 0 then .invalid
      else if v = 0x2F ∧ es = false then
        complexPathChar (stateOf cur) (outBuf stack cur) 0x2F
      else
        let bytes := (PathItem.escape a b v).bytes es
        .next (.path (stateOf (cur ++ bytes))) (outBuf stack (cur ++ bytes)) := by
  have hdigit := isDigit_low ha hb hv
  have hnormal : ∀ c : UInt8, c ≠ 0x2E → TargetStep.next (.path .normal) (c :: outBuf stack cur) =
        .next (.path (stateOf (cur ++ [c]))) (outBuf stack (cur ++ [c])) := by
    intro c hc
    rw [stateOf_snoc_ne_dot cur hc, outBuf_snoc]
  have hkept : ∀ c : UInt8, c ≠ 0x2E →
      TargetStep.next (.path .normal) (c :: 0x32 :: 0x25 :: outBuf stack cur) =
        .next (.path (stateOf (cur ++ [0x25, 0x32, c]))) (outBuf stack (cur ++ [0x25, 0x32, c])) := by
    intro c hc
    have hassoc : cur ++ [0x25, 0x32, c] = cur ++ [0x25] ++ [0x32] ++ [c] := by simp
    rw [hassoc, stateOf_snoc_ne_dot _ hc, outBuf_snoc, outBuf_snoc, outBuf_snoc]
  have hbdot : b ≠ 0x2E := by
    rintro rfl
    exact absurd (hb.symm.trans (by decide : hexDigit 0x2E = none)) (by simp)
  simp only [complexQuotedChar, hb, ← hv]
  by_cases h25 : v = 0x25
  · -- the escape `%25`
    have ha' := first_digit_of_kept ha hb hv (Or.inr h25)
    have hb' := second_digit_of_percent ha hb hv h25
    cases es with
    | false => simpa [PathItem.bytes, hdigit, h25] using hnormal 0x25 (by decide)
    | true => ?_
    subst hb'
    simpa [PathItem.bytes, isDigit, h25, ha'] using hkept 0x35 (by decide)
  by_cases h2f : v = 0x2F
  · -- an escaped slash
    have ha' := first_digit_of_kept ha hb hv (Or.inl h2f)
    cases es with
    | false => simp [hdigit, h2f]
    | true => simpa [PathItem.bytes, hdigit, h2f, ha'] using hkept b hbdot
  have hbytes : (PathItem.escape a b v).bytes es = [v] := by simp [PathItem.bytes, h25, h2f]
  rw [hbytes]
  by_cases h23 : v = 0x23
  · simpa [hdigit, h23] using hnormal 0x23 (by decide)
  by_cases h3f : v = 0x3F
  · simpa [hdigit, h3f] using hnormal 0x3F (by decide)
  -- any other byte is handled in the interrupted state
  rw [complexPathChar_plain h2f h25 h3f h23]
  by_cases h0 : v = 0 <;> simp [h25, h2f, h23, h3f, h0, hdigit]

/-! ### The whole path -/

/-- Bytes that separate nothing only extend the open segment. -/
theorem walk_append (stack : List Bytes) (bytes cur rest : Bytes) (h : 0x2F ∉ bytes) :
    walk segKind 0x2F stack cur (bytes ++ rest) = walk segKind 0x2F stack (cur ++ bytes) rest := by
  induction bytes generalizing cur rest with
  | nil => simp
  | cons c bytes ih => ?_
  simp only [mem_cons, not_or] at h
  rw [cons_append, walk_cons_ne _ _ (Ne.symm h.1), ih _ _ h.2]
  simp

theorem stackOk_close {stack' : List Bytes} (hs : StackOk stack) (hcur : 0x2F ∉ cur)
    (h : close segKind stack cur = some stack') : StackOk stack' := by
  refine ⟨close_allNames segKind hs.1 h, fun s hmem => ?_⟩
  rcases mem_of_close segKind h hmem with hmem | rfl
  · exact hs.2 s hmem
  · exact hcur

theorem pathPart_cons (hargs : c ≠ 0x3F) (hhash : c ≠ 0x23) (s : Bytes) :
    pathPart (c :: s) = c :: pathPart s := by
  simp [pathPart, hargs, hhash]

theorem argsPart_cons (hargs : c ≠ 0x3F) (hhash : c ≠ 0x23) (s : Bytes) :
    argsPart (c :: s) = argsPart s := by
  simp [argsPart, hargs, hhash]

theorem ne_of_hexDigit (h : hexDigit c = some v) : c ≠ 0x3F ∧ c ≠ 0x23 :=
  ⟨ne_of_hexDigit_eq_none h (by decide), ne_of_hexDigit_eq_none h (by decide)⟩

/-- A path that stops inside an escape has no items. -/
theorem lexPath_short {s : Bytes} (h : s.length < 2) : lexPath (0x25 :: s) = none := by
  rw [lexPath.eq_def]
  rcases s with _ | ⟨a, _ | ⟨b, s⟩⟩
  · rfl
  · rfl
  · simp at h

/-- The result of the automaton on the target `t` when `stack` and `cur` have
been read before it. -/
def complexResult (es : Bool) (stack : List Bytes) (cur : Bytes) (q : Bool) (t : Bytes) :
    Option ComplexTarget :=
  (decodePath es (pathPart t)).bind fun d =>
    (walk segKind 0x2F stack cur d).map fun segs =>
      ⟨renderPath segs, argsPart t, q || (pathPart t).contains 0x25⟩

/-- A percent sign that starts no escape fails in the automaton and in the
reference. -/
theorem complexLoop_bad_escape (es : Bool) (stack : List Bytes) (cur : Bytes) (q : Bool)
    (t : Bytes) (hbad : ∀ a b s, t = a :: b :: s → escapeValue a b = none) :
    complexLoop es (.path (stateOf cur)) (outBuf stack cur) q (0x25 :: t) =
      complexResult es stack cur q (0x25 :: t) := by
  have hquoted : complexPathChar (stateOf cur) (outBuf stack cur) 0x25 =
      .next (.quoted (stateOf cur)) (outBuf stack cur) := by
    cases stateOf cur <;> rfl
  have hloop : complexLoop es (.path (stateOf cur)) (outBuf stack cur) q (0x25 :: t) = none := by
    match t, hbad with
    | [], _ => simp [complexLoop, complexChar, hquoted, complexEnd]
    | [a], _ =>
      cases ha : hexDigit a <;> simp [complexLoop, complexChar, hquoted, complexEnd, ha]
    | a :: b :: s, hbad =>
      have hv := hbad a b s rfl
      cases ha : hexDigit a with
      | none => simp [complexLoop, complexChar, hquoted, ha]
      | some high => ?_
      have hb : hexDigit b = none := by
        cases hb : hexDigit b with
        | none => rfl
        | some low => simp [escapeValue, ha, hb] at hv
      simp [complexLoop, complexChar, hquoted, ha, complexQuotedChar, hb]
  have hlex : lexPath (0x25 :: pathPart t) = none := by
    match hp : pathPart t with
    | [] | [_] => exact lexPath_short (by simp)
    | a :: b :: s =>
      obtain ⟨rest, hrest⟩ : a :: b :: s <+: t := hp ▸ takeWhile_prefix _
      rw [lexPath_escape, hbad a b (s ++ rest) (by simpa using hrest.symm)]
      rfl
  rw [hloop, complexResult, pathPart_cons (by decide) (by decide), decodePath, hlex]
  rfl

/-- **The automaton computes the reference** from every path state.  The
induction is on the items of the target, so that an escape is one step. -/
theorem complexLoop_eq (es : Bool) (t : Bytes) {stack : List Bytes} (q : Bool) (hs : StackOk stack)
    (hcur : 0x2F ∉ cur) :
    complexLoop es (.path (stateOf cur)) (outBuf stack cur) q t =
        complexResult es stack cur q t := by
  induction t using lexPath.induct generalizing stack cur q with
  | case1 =>
    simp [complexLoop, complexResult, (complexPathChar_end hs cur).1, pathPart, argsPart]
  | case2 a b s' v hv ih =>
    obtain ⟨high, low, ha, hb, hval⟩ := escapeValue_eq_some hv
    have hpath : pathPart (0x25 :: a :: b :: s') = 0x25 :: a :: b :: pathPart s' := by
      rw [pathPart_cons (by decide) (by decide), pathPart_cons (ne_of_hexDigit ha).1
        (ne_of_hexDigit ha).2, pathPart_cons (ne_of_hexDigit hb).1 (ne_of_hexDigit hb).2]
    have hargs : argsPart (0x25 :: a :: b :: s') = argsPart s' := by
      rw [argsPart_cons (by decide) (by decide), argsPart_cons (ne_of_hexDigit ha).1
        (ne_of_hexDigit ha).2, argsPart_cons (ne_of_hexDigit hb).1 (ne_of_hexDigit hb).2]
    have hcontains : (0x25 :: a :: b :: pathPart s').contains 0x25 = true := by simp
    have hloop : complexLoop es (.path (stateOf cur)) (outBuf stack cur) q (0x25 :: a :: b :: s') =
        complexLoop es (.quotedSecond (stateOf cur) high) (outBuf stack cur) true (b :: s') := by
      have h1 : complexPathChar (stateOf cur) (outBuf stack cur) 0x25 =
          .next (.quoted (stateOf cur)) (outBuf stack cur) := by
        cases stateOf cur <;> rfl
      simp [complexLoop, complexChar, h1, ha]
    rw [hloop, complexResult, hpath, hargs, hcontains, decodePath_escape es hv]
    simp only [complexLoop, complexChar, complexQuotedChar_escape es ha hb hval]
    by_cases h0 : v = 0
    · simp [h0]
    by_cases hslash : v = 0x2F ∧ es = false
    · -- a decoded slash
      have hbytes : (PathItem.escape a b v).bytes es = [0x2F] := by simp [PathItem.bytes, hslash]
      simp only [if_neg h0, if_pos hslash, complexPathChar_slash hs, hbytes, Option.bind_map,
        Function.comp_def, singleton_append, walk_cons_sep]
      cases hcl : close segKind stack cur with
      | none => simp
      | some stack' =>
        simpa [complexResult, stateOf] using ih true (stackOk_close hs hcur hcl) not_mem_nil
    have hbytes := slash_notMem_bytes hv hslash
    simp only [if_neg h0, if_neg hslash, Option.bind_map, Function.comp_def,
      walk_append stack _ cur _ hbytes]
    simpa [complexResult] using ih true hs (by simp [hcur, hbytes])
  | case3 a b s' hv =>
    refine complexLoop_bad_escape es stack cur q (a :: b :: s') fun a' b' s'' h => ?_
    obtain ⟨rfl, rfl, -⟩ : a = a' ∧ b = b' ∧ s' = s'' := by simpa using h
    exact hv
  | case4 s hshort =>
    exact complexLoop_bad_escape es stack cur q s fun a b s' h => absurd h (hshort a b s')
  | case5 c s hc ih =>
    obtain ⟨-, hq, hh⟩ := complexPathChar_end hs cur
    by_cases h3f : c = 0x3F
    · subst h3f
      simp only [complexLoop, complexChar, hq, complexResult, pathPart, argsPart]
      cases hcl : closeLast segKind stack cur <;> simp [hcl]
    by_cases h23 : c = 0x23
    · subst h23
      simp only [complexLoop, complexChar, hh, complexResult, pathPart, argsPart]
      cases hcl : closeLast segKind stack cur <;> simp [hcl]
    have hstep : complexResult es stack cur q (c :: s) = (decodePath es (pathPart s)).bind fun d =>
          (walk segKind 0x2F stack cur (c :: d)).map fun segs =>
            ⟨renderPath segs, argsPart s, q || (pathPart s).contains 0x25⟩ := by
      rw [complexResult, pathPart_cons h3f h23, argsPart_cons h3f h23, decodePath_plain es hc]
      simp only [Option.bind_map, Function.comp_def, contains_cons, beq_false_of_ne (Ne.symm hc),
        Bool.false_or]
    rw [hstep]
    by_cases h2f : c = 0x2F
    · subst h2f
      simp only [complexLoop, complexChar, complexPathChar_slash hs, walk_cons_sep]
      cases hcl : close segKind stack cur with
      | none => simp
      | some stack' =>
        simpa [complexResult, stateOf] using ih q (stackOk_close hs hcur hcl) not_mem_nil
    simp only [complexLoop, complexChar, complexPathChar_plain h2f hc h3f h23, walk_cons_ne _ _ h2f]
    simpa [complexResult] using ih q hs (by simp [hcur, Ne.symm h2f])

/-! ### A whole target -/

theorem stackOk_nil : StackOk [] := ⟨by simp [AllNames], by simp⟩

/-- The automaton on a target that starts with a slash. -/
theorem httpParseComplexTarget_eq (es : Bool) (t : Bytes) :
    httpParseComplexTarget es (0x2F :: t) = complexResult es [] [] false t :=
  complexLoop_eq es t false stackOk_nil not_mem_nil

theorem pathSegments_slash (d : Bytes) :
    resolve segKind [] (pathSegments (0x2F :: d)) = walk segKind 0x2F [] [] d := by
  rw [walk, pathSegments, drop_one, tail_cons]
  cases d.splitOn 0x2F <;> simp

/-- A normalised path: it starts with a slash, no segment is a dot or a
dot-dot, and only the last segment may be empty. -/
structure CleanPath (path : Bytes) : Prop where
  slash : path.head? = some 0x2F
  dots : ∀ s ∈ pathSegments path, s ≠ str "." ∧ s ≠ str ".."
  interior : ∀ s ∈ (pathSegments path).dropLast, s ≠ []

variable {d : Bytes}

theorem cleanPath_renderPath {segs : List Bytes} (h : walk segKind 0x2F [] [] d = some segs) :
    CleanPath (renderPath segs) := by
  rw [walk] at h
  obtain ⟨last, names, rfl, hnames, hlast⟩ := resolve_shape segKind _ (by simp) stackOk_nil.1 h
  have hslash : ∀ s ∈ (last :: names).reverse, 0x2F ∉ s := by
    intro s hs
    rcases mem_of_resolve segKind _ h (mem_reverse.mp hs) with hs | hs | rfl
    · simp at hs
    · have hsplit : (d.splitOn 0x2F).modifyHead ([] ++ ·) = d.splitOn 0x2F := by
        cases d.splitOn 0x2F <;> simp
      exact sep_notMem_of_mem_splitOn 0x2F d (hsplit ▸ hs)
    · simp
  have hsegs : pathSegments (renderPath (last :: names)) = (last :: names).reverse :=
    splitOn_join 0x2F (by simp) hslash
  have hname : ∀ s : Bytes, segKind s = .name → s ≠ [] ∧ s ≠ str "." ∧ s ≠ str ".." := by
    intro s hs
    refine ⟨?_, ?_, ?_⟩ <;> (rintro rfl; exact absurd hs (by decide))
  refine ⟨?_, ?_, ?_⟩
  · exact head?_join 0x2F (by simp)
  · intro s hs
    rw [hsegs, mem_reverse] at hs
    rcases mem_cons.mp hs with rfl | hs
    · rcases hlast with rfl | hlast
      · decide
      · exact (hname _ hlast).2
    · exact (hname s (hnames s hs)).2
  · intro s hs
    rw [hsegs, reverse_cons, dropLast_concat, mem_reverse] at hs
    exact (hname s (hnames s hs)).1

variable {t : Bytes} {r : ComplexTarget}

/-- A target that starts with a slash gives a normalised path. -/
theorem cleanPath_of_complexTarget (h : httpParseComplexTarget es (0x2F :: t) = some r) :
    CleanPath r.path := by
  rw [httpParseComplexTarget_eq, complexResult, Option.bind_eq_some_iff] at h
  obtain ⟨d, -, h⟩ := h
  obtain ⟨segs, hwalk, rfl⟩ := Option.map_eq_some_iff.mp h
  exact cleanPath_renderPath hwalk

variable {path : Bytes}

/-- The segments of a normalised path are their own resolution. -/
theorem resolve_cleanPath (h : CleanPath path) :
    resolve segKind [] (pathSegments path) = some (pathSegments path).reverse := by
  have hne : pathSegments path ≠ [] := splitOn_ne_nil _ _
  have hkind : ∀ s ∈ pathSegments path, s ≠ [] → segKind s = .name := by
    intro s hs hempty
    obtain ⟨hdot, hdots⟩ := h.dots s hs
    rw [show str "." = [0x2E] by decide] at hdot
    rw [show str ".." = [0x2E, 0x2E] by decide] at hdots
    rw [segKind, if_neg (not_or.mpr ⟨hempty, hdot⟩), if_neg hdots]
  have hlast : segKind ((pathSegments path).getLast hne) = .name ∨
      (pathSegments path).getLast hne = [] ∧ segKind [] = .stay := by
    by_cases hempty : (pathSegments path).getLast hne = []
    · exact Or.inr ⟨hempty, rfl⟩
    · exact Or.inl (hkind _ (getLast_mem hne) hempty)
  have hnames : AllNames segKind (pathSegments path).dropLast := fun s hs =>
    hkind s (dropLast_subset _ hs) (h.interior s hs)
  have := resolve_names segKind hlast _ [] hnames
  rwa [dropLast_append_getLast, append_nil] at this

/-- A path that starts with a slash is the text of its segments. -/
theorem renderPath_pathSegments (h : path.head? = some 0x2F) :
    renderPath (pathSegments path).reverse = path := by
  cases path with
  | nil => cases h
  | cons c p => ?_
  obtain rfl : c = 0x2F := Option.some.inj h
  obtain ⟨first, more, hsplit⟩ := exists_cons_of_ne_nil (splitOn_ne_nil 0x2F p)
  rw [renderPath, reverse_reverse, pathSegments, drop_one, tail_cons, hsplit,
    join_cons_eq_intercalate, ← hsplit, intercalate_splitOn]

/-- **A normalised path is kept**: a target whose path decodes to it is
normalised to it. -/
theorem httpParseComplexTarget_of_cleanPath
    (hpath : decodePath es (pathPart (0x2F :: t)) = some path) (hclean : CleanPath path) :
    ∃ r, httpParseComplexTarget es (0x2F :: t) = some r ∧ r.path = path ∧ r.args = argsPart t := by
  rw [pathPart_cons (by decide) (by decide), decodePath_plain es (by decide),
    Option.map_eq_some_iff] at hpath
  obtain ⟨d, hd, rfl⟩ := hpath
  have hwalk : walk segKind 0x2F [] [] d = some (pathSegments (0x2F :: d)).reverse := by
    rw [← pathSegments_slash]
    exact resolve_cleanPath hclean
  rw [httpParseComplexTarget_eq, complexResult, hd, Option.bind_some, hwalk, Option.map_some]
  exact ⟨_, rfl, renderPath_pathSegments rfl, rfl⟩

/-- **Normalising never makes a path longer.** -/
theorem length_complexTarget_le (h : httpParseComplexTarget es (0x2F :: t) = some r)
    (hd : decodePath es (pathPart (0x2F :: t)) = some d) : r.path.length ≤ d.length := by
  rw [pathPart_cons (by decide) (by decide), decodePath_plain es (by decide),
    Option.map_eq_some_iff] at hd
  obtain ⟨d, hd, rfl⟩ := hd
  rw [httpParseComplexTarget_eq, complexResult, hd, Option.bind_some, Option.map_eq_some_iff] at h
  obtain ⟨segs, hwalk, rfl⟩ := h
  rw [← pathSegments_slash] at hwalk
  have hle := length_join_resolve segKind 0x2F _ hwalk
  have htext := renderPath_pathSegments (show (0x2F :: d).head? = some 0x2F from rfl)
  rw [renderPath, reverse_reverse] at htext
  rw [join_nil, length_nil, Nat.zero_add, htext] at hle
  have hrev : (renderPath segs).length = (join 0x2F segs).length := by
    simp [renderPath, join]
  rw [hrev]
  exact hle

theorem any_isNul_iff (items : List PathItem) :
    items.any PathItem.isNul = true ↔ DecodesNul items := by
  rw [any_eq_true]
  constructor
  · rintro ⟨item, hmem, hnul⟩
    cases item with
    | plain c => simp at hnul
    | escape a b c => ?_
    rw [PathItem.isNul_escape, beq_iff_eq] at hnul
    exact ⟨a, b, hnul ▸ hmem⟩
  · rintro ⟨a, b, hmem⟩
    exact ⟨_, hmem, rfl⟩

theorem escapeValue_of_mem_lexPath (path : Bytes) {items : List PathItem} {a b c : UInt8}
    (h : lexPath path = some items) (hmem : PathItem.escape a b c ∈ items) :
    escapeValue a b = some c := by
  induction path using lexPath.induct generalizing items a b c with
  | case1 =>
    simp only [lexPath, Option.some.injEq] at h
    simp [← h] at hmem
  | case2 x y s' v hv ih =>
    rw [lexPath_escape, hv, Option.bind_some, Option.map_eq_some_iff] at h
    obtain ⟨rest, hrest, rfl⟩ := h
    rcases mem_cons.mp hmem with heq | hmem
    · cases heq
      exact hv
    · exact ih hrest hmem
  | case3 x y s' hv =>
    simp [lexPath_escape, hv] at h
  | case4 s hshort =>
    match s, hshort with
    | [], _ | [_], _ => simp [lexPath_short] at h
    | x :: y :: s', hshort => exact absurd rfl (hshort x y s')
  | case5 d s hd ih => ?_
  rw [lexPath_plain hd, Option.map_eq_some_iff] at h
  obtain ⟨rest, hrest, rfl⟩ := h
  rcases mem_cons.mp hmem with heq | hmem
  · cases heq
  · exact ih hrest hmem

/-- The reference fails exactly at a bad escape, an escaped NUL or a climb. -/
theorem referencePath_eq_none_iff (es : Bool) (target : Bytes) : referencePath es target = none ↔
      lexPath (pathPart target) = none ∨
      ∃ items, lexPath (pathPart target) = some items ∧
        (DecodesNul items ∨ Climbs segKind 0 (pathSegments (items.flatMap (·.bytes es)))) := by
  rw [referencePath, decodePath]
  cases hlex : lexPath (pathPart target) with
  | none => simp
  | some items => ?_
  by_cases hnul : items.any PathItem.isNul
  · rw [Option.bind_some, if_pos hnul]
    simp [(any_isNul_iff items).mp hnul]
  have hno : ¬ DecodesNul items := fun h => hnul ((any_isNul_iff items).mpr h)
  rw [Option.bind_some, if_neg hnul]
  simp [hno, resolve_eq_none_iff]

/-- **Normalisation of a target that starts with a slash.**  It yields the
reference path; that path is clean; it fails exactly when the path holds a
bad percent escape, an escape of NUL, or climbs above the root; and with
encoded slashes an escaped slash or percent sign is kept as written and
brings no separator into the path. -/
theorem httpParseComplexTarget_reference (es : Bool) (t : Bytes) :
    let target := 0x2F :: t
    (httpParseComplexTarget es target).map (·.path) = referencePath es target ∧
    (∀ r, httpParseComplexTarget es target = some r → CleanPath r.path) ∧
    (httpParseComplexTarget es target = none ↔
      lexPath (pathPart target) = none ∨
      ∃ items, lexPath (pathPart target) = some items ∧
        (DecodesNul items ∨
          Climbs segKind 0 (pathSegments (items.flatMap (·.bytes es))))) ∧
    (es = true → ∀ items, lexPath (pathPart target) = some items →
      ∀ a b c, PathItem.escape a b c ∈ items → c = 0x2F ∨ c = 0x25 →
        (PathItem.escape a b c).bytes es = [0x25, a, b] ∧
          0x2F ∉ (PathItem.escape a b c).bytes es) := by
  intro target
  have hpath : pathPart target = 0x2F :: pathPart t := pathPart_cons (by decide) (by decide) t
  have hdecode : decodePath es (pathPart target) = (decodePath es (pathPart t)).map (0x2F :: ·) := by
    rw [hpath, decodePath_plain es (by decide)]
  have hresult := httpParseComplexTarget_eq es t
  have href : (httpParseComplexTarget es target).map (·.path) = referencePath es target := by
    rw [hresult, complexResult, referencePath, hdecode]
    cases decodePath es (pathPart t) with
    | none => rfl
    | some d => simp [pathSegments_slash, Function.comp_def]
  refine ⟨href, ?_, ?_, ?_⟩
  · exact fun r hr => cleanPath_of_complexTarget hr
  · rw [← referencePath_eq_none_iff, ← href, Option.map_eq_none_iff]
  · intro hes items hlex a b c hmem hc
    have hv := escapeValue_of_mem_lexPath _ hlex hmem
    exact ⟨by simp [PathItem.bytes, hes, hc], slash_notMem_bytes hv (by simp [hes])⟩

end FreeUnit
