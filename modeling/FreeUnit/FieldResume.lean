/-
Resuming the header fields.

A call of a field handler on the bytes `b` is compared with the call on
`b ++ m`, the same bytes with more behind them.  `Continues` says what the
first call promises about the second: a finished field is finished in the
same way, and a call that asked for more, continued with `m`, ends as the
call on everything does.  The one exception is a field that is already too
large when the bytes run out: with more bytes it might have been found
invalid first.

* `parseFieldEnd_continues`, `parseFieldValue_continues`,
  `parseFieldName_continues` — the three handlers;
* `parseFieldName_withFlags` and its siblings — the field handlers do not look
  at the flags of the target.
-/
import FreeUnit.HttpParse

namespace FreeUnit

open List

/-- The result without the record an error leaves behind. -/
def ParseResult.erase : ParseResult → ParseResult
  | .error c _ => .error c {}
  | r => r

/-- What the result `r` of a call promises about the result `r'` of the same
call with `m` behind its bytes. -/
def Continues (m : Bytes) (r r' : ParseResult) : Prop :=
  match r with
  | .ok rp b => r' = .ok rp (b ++ m)
  | .again h rp b => r'.erase = (callHandler h rp (b ++ m)).erase
  | .done rp b => r' = .done rp (b ++ m)
  | .error c _ => c = .tooLargeField ∨ r'.erase = .error c {}

variable {m b : Bytes} {rp rp' : RequestParse} {f : TargetFlags}

theorem continues_invalid (rp rp' : RequestParse) :
    Continues m (.error .invalid rp) (.error .invalid rp') :=
  Or.inr rfl

theorem continues_tooLarge (rp : RequestParse) (r' : ParseResult) :
    Continues m (.error .tooLargeField rp) r' :=
  Or.inl rfl

/-! ### The end of a field -/

theorem fieldLinefeed_continues (rp : RequestParse) (b m : Bytes) :
    Continues m (fieldLinefeed rp b) (fieldLinefeed rp (b ++ m)) := by
  unfold fieldLinefeed
  split <;> rfl

theorem parseFieldEnd_continues (rp : RequestParse) (b m : Bytes) :
    Continues m (parseFieldEnd rp b) (parseFieldEnd rp (b ++ m)) := by
  match b with
  | [] => rfl
  | [c] =>
    by_cases hcr : c = 0x0D
    · simp only [parseFieldEnd, if_pos hcr]
      rfl
    by_cases hlf : c = 0x0A
    · simpa [parseFieldEnd, hcr, hlf] using fieldLinefeed_continues rp [] m
    · simpa [parseFieldEnd, hcr, hlf] using continues_invalid rp rp
  | c :: c' :: s =>
    by_cases hcr : c = 0x0D
    · by_cases hlf : c' = 0x0A
      · simpa [parseFieldEnd, hcr, hlf] using fieldLinefeed_continues rp s m
      · simpa [parseFieldEnd, hcr, hlf] using continues_invalid rp rp
    by_cases hlf : c = 0x0A
    · simpa [parseFieldEnd, hcr, hlf] using fieldLinefeed_continues rp (c' :: s) m
    · simpa [parseFieldEnd, hcr, hlf] using continues_invalid rp rp

/-! ### The value of a field -/

theorem parseFieldValue_of_nil (h : b.dropWhile isBlank = []) :
    parseFieldValue rp b = .again .fieldValue rp [] := by
  rw [parseFieldValue, h]

theorem parseFieldValue_of_cons {s : Bytes} {ch : UInt8}
    (h : b.dropWhile isBlank = ch :: s) : parseFieldValue rp b = scanFieldValue rp (ch :: s) := by
  rw [parseFieldValue, h]

/-- Skipping what has been scanned before finds the same end of the value. -/
theorem scanFieldValue_skip (rp : RequestParse) {start : Bytes}
    (hinv : rp.fieldValue.length ≤ start.length)
    (hall : (start.drop rp.fieldValue.length).dropWhile isValueChar = []) :
    (scanFieldValue rp (start ++ m)).erase =
      (scanFieldValue { rp with fieldValue := start } (start ++ m)).erase := by
  have hskip : (start ++ m).drop start.length = m := drop_left
  have hold : ((start ++ m).drop rp.fieldValue.length).dropWhile isValueChar =
      m.dropWhile isValueChar := by
    rw [drop_append_of_le_length hinv, dropWhile_append_of_eq_nil hall]
  simp only [scanFieldValue, hskip, hold]
  split
  · split <;> rfl
  split
  · rfl
  split
  · rfl
  · split <;> rfl

theorem scanFieldValue_continues {ch : UInt8} {s : Bytes}
    (hch : isBlank ch = false) (hinv : rp.fieldValue.length ≤ (ch :: s).length) (m : Bytes) :
    Continues m (scanFieldValue rp (ch :: s)) (scanFieldValue rp (ch :: s ++ m)) := by
  have hdrop : (ch :: s ++ m).drop rp.fieldValue.length =
      (ch :: s).drop rp.fieldValue.length ++ m := drop_append_of_le_length hinv
  match hv : ((ch :: s).drop rp.fieldValue.length).dropWhile isValueChar with
  | [] =>
    have hskip := scanFieldValue_skip rp (m := m) hinv hv
    rw [scanFieldValue, hv]
    by_cases hbig : (ch :: s).length > httpMaxFieldValue
    · simp only [if_pos hbig]
      exact continues_tooLarge _ _
    -- the next call starts at the same byte, which is not blank
    have hstart : (ch :: s ++ m).dropWhile isBlank = ch :: (s ++ m) := by
      simp [hch]
    simp only [if_neg hbig]
    show _ = (parseFieldValue { rp with fieldValue := ch :: s } (ch :: s ++ m)).erase
    rw [parseFieldValue_of_cons hstart]
    exact hskip
  | c :: p =>
    have hlen : (c :: p).length ≤ (ch :: s).length := le_trans (length_le_of_dropWhile hv) (by simp)
    have hvalue := take_length_sub_append hlen m
    have hvm : ((ch :: s ++ m).drop rp.fieldValue.length).dropWhile isValueChar = c :: (p ++ m) := by
      rw [hdrop, dropWhile_append_of_eq_cons hv]
      rfl
    simp only [scanFieldValue, hv, hvm]
    simp only [cons_append] at hvalue ⊢
    simp only [hvalue]
    split
    · exact continues_invalid _ _
    split
    · exact continues_invalid _ _
    split
    · exact continues_tooLarge _ _
    · exact parseFieldEnd_continues _ (c :: p) m

theorem parseFieldValue_continues
    (hinv : rp.fieldValue.length ≤ (b.dropWhile isBlank).length) (m : Bytes) :
    Continues m (parseFieldValue rp b) (parseFieldValue rp (b ++ m)) := by
  match hb : b.dropWhile isBlank with
  | [] =>
    -- only blanks so far: they are consumed
    have hmore : parseFieldValue rp (b ++ m) = parseFieldValue rp m := by
      rw [parseFieldValue, parseFieldValue, dropWhile_append_of_eq_nil hb]
    rw [hmore, parseFieldValue_of_nil hb]
    rfl
  | ch :: s =>
    have hblank : isBlank ch = false := by
      have h := head?_dropWhile_not isBlank b
      rw [hb] at h
      simpa using h
    rw [parseFieldValue_of_cons hb, parseFieldValue_of_cons (dropWhile_append_of_eq_cons hb m)]
    exact scanFieldValue_continues hblank (hb ▸ hinv) m

/-! ### The name of a field -/

theorem scanName_length_le (d : Bool) (x : Bytes) (hash : UInt32) (skip : Bool) :
    (scanName d hash skip x).2.2.length ≤ x.length := by
  induction x generalizing hash skip with
  | nil => simp [scanName]
  | cons ch x ih => ?_
  simp only [scanName]
  split
  · simp
  · split <;> exact le_trans (ih _ _) (by simp)

theorem scanName_append (d : Bool) : ∀ (x m : Bytes) (hash : UInt32) (skip : Bool),
    scanName d hash skip (x ++ m) = match scanName d hash skip x with
      | (hash', skip', []) => scanName d hash' skip' m
      | (hash', skip', c :: p) => (hash', skip', c :: p ++ m) := by
  intro x m
  induction x with
  | nil => intro hash skip; rfl
  | cons ch x ih => ?_
  intro hash skip
  by_cases h0 : fieldNameNormal ch = 0
  · simp [scanName, h0]
  by_cases h1 : fieldNameNormal ch = 1
  · simp [scanName, h1, ih]
  · simp [scanName, h0, h1, ih]

/-- With the end of the name in sight the bytes behind change nothing. -/
theorem fieldNameEnd_continues (hv : rp.fieldValue = []) {p : Bytes}
    {hash : UInt32} {skip : Bool} {c : UInt8} (hlen : (c :: p).length ≤ b.length) (m : Bytes) :
    Continues m (fieldNameEnd rp b hash skip (c :: p))
      (fieldNameEnd rp (b ++ m) hash skip (c :: p ++ m)) := by
  have hname := take_length_sub_append hlen m
  have hsub : (b ++ m).length - (c :: p ++ m).length = b.length - (c :: p).length := by
    simp only [length_append]
    omega
  rw [hsub] at hname
  simp only [cons_append] at hsub
  simp only [fieldNameEnd, cons_append, hsub, hname]
  split
  · split
    · exact continues_invalid _ _
    split
    · exact continues_tooLarge _ _
    · exact parseFieldValue_continues (by simp [hv]) m
  split
  · exact continues_invalid _ _
  · exact parseFieldEnd_continues _ b m

/-- A name that goes on behind `b` ends as if it had been scanned at once. -/
theorem fieldNameEnd_skip (rp : RequestParse) {hash hash' : UInt32}
    {skip skip' : Bool} {rest : Bytes} (hrest : rest.length ≤ m.length)
    (hnil : b = [] → rp.fieldName = [] ∧ hash = rp.fieldHash ∧ skip = rp.skipField) :
    (fieldNameEnd rp (b ++ m) hash' skip' rest).erase =
      (fieldNameEnd { rp with fieldHash := hash, skipField := skip, fieldName := b }
        (b ++ m) hash' skip' rest).erase := by
  match rest with
  | [] =>
    simp only [fieldNameEnd]
    split <;> rfl
  | c :: p =>
    simp only [fieldNameEnd]
    split
    · split
      · rfl
      · split <;> rfl
    split
    · rfl
    -- nothing was scanned before the end of the header
    rename_i hlen
    have hb : b = [] := by
      rw [length_append] at hlen
      exact eq_nil_of_length_eq_zero (by omega)
    obtain ⟨hname, hhash, hskip⟩ := hnil hb
    subst hb hhash
    rw [← hname]

theorem parseFieldName_continues (hv : rp.fieldValue = [])
    (hinv : rp.fieldName.length ≤ b.length) (m : Bytes) :
    Continues m (parseFieldName rp b) (parseFieldName rp (b ++ m)) := by
  have hscan := scanName_append rp.discardUnsafeFields (b.drop rp.fieldName.length) m
    rp.fieldHash rp.skipField
  have hdrop : (b ++ m).drop rp.fieldName.length = b.drop rp.fieldName.length ++ m :=
    drop_append_of_le_length hinv
  have hle := scanName_length_le rp.discardUnsafeFields (b.drop rp.fieldName.length)
    rp.fieldHash rp.skipField
  rw [parseFieldName, parseFieldName, hdrop, hscan]
  match hs : scanName rp.discardUnsafeFields rp.fieldHash rp.skipField
      (b.drop rp.fieldName.length) with
  | (hash, skip, c :: p) =>
    rw [hs] at hle
    exact fieldNameEnd_continues hv (le_trans hle (by simp)) m
  | (hash, skip, []) =>
    simp only [fieldNameEnd]
    by_cases hbig : b.length > httpMaxFieldName
    · rw [if_pos hbig]
      exact continues_tooLarge _ _
    rw [if_neg hbig]
    show _ = (parseFieldName _ (b ++ m)).erase
    rw [parseFieldName, show (b ++ m).drop b.length = m from drop_left]
    refine fieldNameEnd_skip rp (scanName_length_le _ _ _ _) fun hb => ?_
    subst hb
    have hname : rp.fieldName = [] := eq_nil_of_length_eq_zero (by simpa using hinv)
    simp only [drop_nil, scanName, Prod.mk.injEq, and_true] at hs
    exact ⟨hname, hs.1.symm, hs.2.symm⟩

/-! ### The flags of the target -/

def RequestParse.withFlags (rp : RequestParse) (f : TargetFlags) : RequestParse :=
  { rp with flags := f }

def ParseResult.withFlags (f : TargetFlags) : ParseResult → ParseResult
  | .ok rp b => .ok (rp.withFlags f) b
  | .again h rp b => .again h (rp.withFlags f) b
  | .done rp b => .done (rp.withFlags f) b
  | .error c rp => .error c (rp.withFlags f)

section

variable (h : rp' = rp.withFlags f)
include h

theorem parseFieldEnd_withFlags (b : Bytes) :
    parseFieldEnd rp' b = (parseFieldEnd rp b).withFlags f := by
  subst h
  have hlf : ∀ s, fieldLinefeed (rp.withFlags f) s = (fieldLinefeed rp s).withFlags f := by
    intro s
    by_cases hname : rp.fieldName = []
    · rw [fieldLinefeed, fieldLinefeed, if_pos hname,
        if_pos (show (rp.withFlags f).fieldName = [] from hname)]
      rfl
    rw [fieldLinefeed, fieldLinefeed, if_neg hname,
      if_neg (show ¬ (rp.withFlags f).fieldName = [] from hname)]
    rfl
  unfold parseFieldEnd
  split
  · rfl
  split
  · split
    · rfl
    split
    · exact hlf _
    · rfl
  split
  · exact hlf _
  · rfl

theorem scanFieldValue_withFlags (start : Bytes) :
    scanFieldValue rp' start = (scanFieldValue rp start).withFlags f := by
  have hv : rp'.fieldValue = rp.fieldValue := by rw [h]; rfl
  rw [scanFieldValue, scanFieldValue, hv]
  split
  · split
    · rw [h]; rfl
    · rw [h]; rfl
  split
  · rw [h]; rfl
  simp only
  split
  · rw [h]; rfl
  split
  · rw [h]; rfl
  · exact parseFieldEnd_withFlags (by rw [h]; rfl) _

theorem parseFieldValue_withFlags (b : Bytes) :
    parseFieldValue rp' b = (parseFieldValue rp b).withFlags f := by
  unfold parseFieldValue
  split
  · rw [h]; rfl
  · exact scanFieldValue_withFlags h _

theorem parseFieldName_withFlags (b : Bytes) :
    parseFieldName rp' b = (parseFieldName rp b).withFlags f := by
  have hend : ∀ hash skip rest, fieldNameEnd rp' b hash skip rest =
      (fieldNameEnd rp b hash skip rest).withFlags f := by
    intro hash skip rest
    unfold fieldNameEnd
    split
    · split
      · rw [h]; rfl
      · rw [h]; rfl
    simp only
    split
    · split
      · rw [h]; rfl
      split
      · rw [h]; rfl
      · exact parseFieldValue_withFlags (by rw [h]; rfl) _
    split
    · rw [h]; rfl
    · exact parseFieldEnd_withFlags (by rw [h]; rfl) _
  rw [parseFieldName, parseFieldName, hend]
  subst h
  rfl

end

end FreeUnit
