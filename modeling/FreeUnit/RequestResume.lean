/-
Incremental parsing of a request.

The parser called once for every read is compared with one call on all bytes
at once.

* `parseReads_agrees` — the result of the reads and the result of the whole.
-/
import FreeUnit.PlainTarget

namespace FreeUnit

open Streaming List

/-! ### The loop over the handlers -/

def Shortens (b : Bytes) (r : ParseResult) : Prop :=
  ∀ rp' b', r = .ok rp' b' ∨ r = .done rp' b' → b'.length < b.length

variable {b rest method t : Bytes} {r : ParseResult} {l : RequestLine} {rp rp' : RequestParse}
  {h : ParseHandler} {f : TargetFlags}

theorem Shortens.mono {c : Bytes} (h : Shortens b r)
    (hle : b.length ≤ c.length) : Shortens c r :=
  fun rp' b' hr => lt_of_lt_of_le (h rp' b' hr) hle

theorem fieldLinefeed_shortens (rp : RequestParse) (s : Bytes) (c : UInt8) :
    Shortens (c :: s) (fieldLinefeed rp s) := by
  rintro rp' b' (h | h)
  · unfold fieldLinefeed at h
    split at h <;> cases h
    simp
  unfold fieldLinefeed at h
  split at h <;> cases h
  simp

theorem parseFieldEnd_shortens (rp : RequestParse) (b : Bytes) :
    Shortens b (parseFieldEnd rp b) := by
  unfold parseFieldEnd
  split
  · rintro rp' b' (h | h) <;> cases h
  split
  · split
    · rintro rp' b' (h | h) <;> cases h
    split
    · exact (fieldLinefeed_shortens rp _ 0x0A).mono (by simp)
    · rintro rp' b' (h | h) <;> cases h
  split
  · exact (fieldLinefeed_shortens rp _ 0x0A).mono (by simp)
  · rintro rp' b' (h | h) <;> cases h

theorem parseFieldValue_shortens (rp : RequestParse) (b : Bytes) :
    Shortens b (parseFieldValue rp b) := by
  unfold parseFieldValue
  split
  · rintro rp' b' (h | h) <;> cases h
  rename_i ch s hb
  unfold scanFieldValue
  split
  · split <;> (rintro rp' b' (h | h) <;> cases h)
  rename_i c p hp
  simp only
  split
  · rintro rp' b' (h | h) <;> cases h
  split
  · rintro rp' b' (h | h) <;> cases h
  split
  · rintro rp' b' (h | h) <;> cases h
  refine (parseFieldEnd_shortens _ _).mono ?_
  exact le_trans (le_trans (length_le_of_dropWhile hp) (by simp))
    (length_le_of_dropWhile hb)

theorem parseFieldName_shortens (rp : RequestParse) (b : Bytes) :
    Shortens b (parseFieldName rp b) := by
  have hle := scanName_length_le rp.discardUnsafeFields (b.drop rp.fieldName.length)
    rp.fieldHash rp.skipField
  rw [parseFieldName]
  generalize scanName rp.discardUnsafeFields rp.fieldHash rp.skipField
    (b.drop rp.fieldName.length) = scan at hle ⊢
  obtain ⟨hash, skip, rest⟩ := scan
  unfold fieldNameEnd
  simp only at hle ⊢
  split
  · split <;> (rintro rp' b' (h | h) <;> cases h)
  split
  · split
    · rintro rp' b' (h | h) <;> cases h
    split
    · rintro rp' b' (h | h) <;> cases h
    refine (parseFieldValue_shortens _ _).mono ?_
    simp only [length_cons, length_drop] at hle
    omega
  split
  · rintro rp' b' (h | h) <;> cases h
  · exact parseFieldEnd_shortens _ b

theorem versionEnd_rest_length {st : TargetScan} {s : Bytes}
    (h : versionEnd st s = .line l rest) : rest.length ≤ s.length := by
  have hdrop : (s.drop 8).length ≤ s.length := by simp
  simp only [versionEnd] at h
  split at h
  · split at h
    · cases h
    rename_i c s' hs
    rw [hs, length_cons] at hdrop
    split at h
    · split at h
      · cases h
      split at h
      · cases h
        rw [length_cons] at hdrop
        omega
      · cases h
    cases h
    omega
  · split at h <;> cases h

theorem scanTarget_rest_length (s : Bytes) (label : TargetLabel) (p : ℕ) (st : TargetScan)
    {l : RequestLine} {rest : Bytes} (h : scanTarget label p st s = .line l rest) :
    rest.length ≤ s.length := by
  induction s generalizing label p st l rest with
  | nil => cases label <;> simp [scanTarget] at h
  | cons c s ih => ?_
  have hih : ∀ {label p st}, scanTarget label p st s = .line l rest →
      rest.length ≤ (c :: s).length :=
    fun h => le_trans (ih _ _ _ h) (by simp)
  have htarget : scanTarget .target p st (c :: s) = .line l rest →
      rest.length ≤ (c :: s).length := by
    intro h
    rw [scanTarget] at h
    split at h
    · exact hih h
    · exact hih h
    · cases h
  cases label with
  | target => exact htarget h
  | spaceAfterTarget => ?_
  by_cases hshort : s.length < 8
  · rw [scanTarget_space_short hshort] at h
    split at h
    · exact hih h
    split at h
    · cases h
    · exact hih h
  by_cases h8 : (c :: s)[8]? = some 0x0D ∨ (c :: s)[8]? = some 0x0A
  · rw [scanTarget_space_version hshort h8] at h
    exact versionEnd_rest_length h
  rw [scanTarget_space_long hshort h8] at h
  split at h
  · exact hih h
  · exact htarget h

theorem scanLine_rest_length
    (h : scanLine b = (method, t, .line l rest)) : rest.length ≤ b.length := by
  unfold scanLine at h
  split at h
  · cases h
  · cases h
  rename_i method' s hm
  split at h
  · cases h
  · cases h
  rename_i t' ht
  have hline : scanTarget .target 1 {} t' = .line l rest := by
    rw [Prod.mk.injEq, Prod.mk.injEq] at h
    exact h.2.2
  have hs : s.length ≤ b.length := by
    unfold scanMethod at hm
    simp only at hm
    split at hm
    · cases hm
    rename_i c s' hs
    split at hm
    · cases hm
      have := length_le_of_dropWhile hs
      have := length_le_of_dropWhile (rfl : b.dropWhile isCrlf = _)
      simp only [length_cons] at *
      omega
    · cases hm
  have ht' : t'.length ≤ s.length := by
    unfold scanTargetStart at ht
    split at ht
    · cases ht
    rename_i c t'' hc
    split at ht
    · cases ht
      have := length_le_of_dropWhile hc
      simp only [length_cons] at this
      omega
    · cases ht
  exact le_trans (scanTarget_rest_length _ _ _ _ hline) (le_trans ht' hs)

theorem callHandler_shortens (h : ParseHandler) (rp : RequestParse) (b : Bytes) :
    Shortens b (callHandler h rp b) := by
  cases h with
  | requestLine =>
    show Shortens b (parseRequestLine rp b)
    unfold parseRequestLine
    split
    · rintro rp' b' (h | h) <;> cases h
    · rintro rp' b' (h | h) <;> cases h
    · rintro rp' b' (h | h) <;> cases h
    rename_i method t l rest hline
    split
    · rintro rp' b' (h | h) <;> cases h
    · exact (parseFieldName_shortens _ _).mono (scanLine_rest_length hline)
  | fieldName => exact parseFieldName_shortens rp b
  | fieldValue => exact parseFieldValue_shortens rp b
  | fieldEnd => exact parseFieldEnd_shortens rp b

/-- Fuel beyond the length of the bytes changes nothing. -/
theorem parseLoop_fuel (n k : ℕ) (h : ParseHandler) (rp : RequestParse) (b : Bytes)
    (hn : b.length < n) (hk : b.length < k) : parseLoop n h rp b = parseLoop k h rp b := by
  induction n generalizing k h rp b with
  | zero => omega
  | succ n ih => ?_
  obtain ⟨k, rfl⟩ : ∃ j, k = j + 1 := ⟨k - 1, by omega⟩
  have hshort := callHandler_shortens h rp b
  rw [parseLoop, parseLoop]
  cases hr : callHandler h rp b with
  | ok rp' b' =>
    have := hshort rp' b' (.inl hr)
    exact ih k .fieldName rp' b' (by omega) (by omega)
  | again | done | error => rfl

def afterCall : ParseResult → ParseResult
  | .ok rp b => httpParseRequest .fieldName rp b
  | r => r

/-- **The loop without fuel**: a call, and the loop again after a field. -/
theorem httpParseRequest_eq (h : ParseHandler) (rp : RequestParse) (b : Bytes) :
    httpParseRequest h rp b = afterCall (callHandler h rp b) := by
  have hshort := callHandler_shortens h rp b
  rw [httpParseRequest, parseLoop]
  cases hr : callHandler h rp b with
  | ok rp' b' =>
    exact parseLoop_fuel _ _ _ _ _ (hshort rp' b' (.inl hr)) (by omega)
  | again | done | error => rfl

theorem httpParseRequest_shortens (n : ℕ) {h : ParseHandler} {rp rp' : RequestParse}
    {b left : Bytes} (hn : b.length ≤ n) (hdone : httpParseRequest h rp b = .done rp' left) :
    left.length < b.length := by
  induction n using Nat.strong_induction_on generalizing h rp rp' b left with
  | _ n ih =>
    have hshort := callHandler_shortens h rp b
    rw [httpParseRequest_eq] at hdone
    cases hr : callHandler h rp b with
    | ok rp1 b1 =>
      rw [hr] at hdone
      have hlt := hshort rp1 b1 (.inl hr)
      have := ih b1.length (by omega) le_rfl hdone
      omega
    | done rp1 b1 =>
      rw [hr] at hdone
      cases hdone
      exact hshort _ _ (.inr hr)
    | again | error =>
      rw [hr] at hdone
      cases hdone

/-! ### What the field handlers keep -/

/-- What every result of a call on the record `rp` says about the record it
leaves: the request line stays as it was, and a handler that goes on finds
what it has scanned before at the start of its bytes. -/
def Ready : ParseHandler → RequestParse → Bytes → Prop
  | .requestLine, rp, _ => rp.fieldName = [] ∧ rp.fieldValue = []
  | .fieldName, rp, b => rp.fieldName.length ≤ b.length ∧ rp.fieldValue = []
  | .fieldValue, rp, b => rp.fieldValue.length ≤ (b.dropWhile isBlank).length
  | .fieldEnd, _, _ => True

def RequestParse.SameLine (rp rp' : RequestParse) : Prop :=
  rp'.target = rp.target ∧ rp'.flags = rp.flags

/-- A result of a field handler called on `rp`. -/
def Keeps (rp : RequestParse) : ParseResult → Prop
  | .ok rp' _ => rp.SameLine rp' ∧ rp'.fieldName = [] ∧ rp'.fieldValue = []
  | .again h rp' b' => rp.SameLine rp' ∧ h ≠ .requestLine ∧ Ready h rp' b'
  | .done rp' _ => rp.SameLine rp'
  | .error _ _ => True

theorem Keeps.trans (h : Keeps rp' r)
    (hsame : rp.SameLine rp') : Keeps rp r := by
  have htrans : ∀ {rp''}, rp'.SameLine rp'' → rp.SameLine rp'' :=
    fun h => ⟨h.1.trans hsame.1, h.2.trans hsame.2⟩
  cases r with
  | ok | again => exact ⟨htrans h.1, h.2⟩
  | done rp'' b => exact htrans h
  | error c rp'' => trivial

theorem parseFieldEnd_keeps (hsame : rp.SameLine rp') (b : Bytes) :
    Keeps rp (parseFieldEnd rp' b) := by
  have hlf : ∀ s, Keeps rp (fieldLinefeed rp' s) := by
    intro s
    unfold fieldLinefeed
    split
    · exact hsame
    · exact ⟨hsame, rfl, rfl⟩
  unfold parseFieldEnd
  split
  · exact ⟨hsame, by simp, trivial⟩
  split
  · split
    · exact ⟨hsame, by simp, trivial⟩
    split
    · exact hlf _
    · trivial
  split
  · exact hlf _
  · trivial

theorem parseFieldValue_keeps (hsame : rp.SameLine rp')
    (hready : Ready .fieldValue rp' b) : Keeps rp (parseFieldValue rp' b) := by
  unfold parseFieldValue
  split
  · rename_i hb
    rw [Ready, hb] at hready
    exact ⟨hsame, by simp, by simpa [Ready] using hready⟩
  rename_i ch s hb
  have hblank : isBlank ch = false := by
    have h := head?_dropWhile_not isBlank b
    rw [hb] at h
    simpa using h
  unfold scanFieldValue
  split
  · split
    · trivial
    · exact ⟨hsame, by simp, by simp [Ready, hblank]⟩
  simp only
  split
  · trivial
  split
  · trivial
  split
  · trivial
  refine parseFieldEnd_keeps ?_ _
  exact ⟨hsame.1, hsame.2⟩

theorem parseFieldName_keeps (hsame : rp.SameLine rp')
    (hready : Ready .fieldName rp' b) : Keeps rp (parseFieldName rp' b) := by
  rw [parseFieldName]
  generalize scanName rp'.discardUnsafeFields rp'.fieldHash rp'.skipField
    (b.drop rp'.fieldName.length) = scan
  unfold fieldNameEnd
  split
  · split
    · trivial
    · exact ⟨hsame, by simp, le_refl _, hready.2⟩
  simp only
  split
  · split
    · trivial
    split
    · trivial
    refine parseFieldValue_keeps ?_ ?_
    · exact ⟨hsame.1, hsame.2⟩
    · simp [Ready, hready.2]
  split
  · trivial
  refine parseFieldEnd_keeps ?_ _
  exact ⟨hsame.1, hsame.2⟩

theorem callHandler_keeps (hh : h ≠ .requestLine)
    (hready : Ready h rp b) : Keeps rp (callHandler h rp b) := by
  cases h with
  | requestLine => exact absurd rfl hh
  | fieldName => exact parseFieldName_keeps ⟨rfl, rfl⟩ hready
  | fieldValue => exact parseFieldValue_keeps ⟨rfl, rfl⟩ hready
  | fieldEnd => exact parseFieldEnd_keeps ⟨rfl, rfl⟩ b

theorem callHandler_continues (hh : h ≠ .requestLine)
    (hready : Ready h rp b) (m : Bytes) :
    Continues m (callHandler h rp b) (callHandler h rp (b ++ m)) := by
  cases h with
  | requestLine => exact absurd rfl hh
  | fieldName => exact parseFieldName_continues hready.2 hready.1 m
  | fieldValue => exact parseFieldValue_continues hready m
  | fieldEnd => exact parseFieldEnd_continues rp b m

theorem callHandler_withFlags (hh : h ≠ .requestLine)
    (hf : rp' = rp.withFlags f) (b : Bytes) :
    callHandler h rp' b = (callHandler h rp b).withFlags f := by
  cases h with
  | requestLine => exact absurd rfl hh
  | fieldName => exact parseFieldName_withFlags hf b
  | fieldValue => exact parseFieldValue_withFlags hf b
  | fieldEnd => exact parseFieldEnd_withFlags hf b

/-! ### The parser on the fields -/

/-- What the result `r` of the parser promises about its result `r'` with `m`
behind the bytes. -/
def LoopContinues (m : Bytes) (r r' : ParseResult) : Prop :=
  match r with
  | .ok _ _ => False
  | .again h rp b => r'.erase = (httpParseRequest h rp (b ++ m)).erase
  | .done rp b => r' = .done rp (b ++ m)
  | .error c _ => c = .tooLargeField ∨ r'.erase = .error c {}

theorem afterCall_erase {r' : ParseResult} (h : r.erase = r'.erase) :
    (afterCall r).erase = (afterCall r').erase := by
  cases r <;> cases r' <;> simp_all [afterCall, ParseResult.erase]

/-- **The parser on the fields**, and the same with more bytes behind: by
induction on the bytes, one field after another. -/
theorem httpParseRequest_continues (m : Bytes) (n : ℕ) {h : ParseHandler} {rp : RequestParse}
    {b : Bytes} (hn : b.length ≤ n) (hh : h ≠ .requestLine) (hready : Ready h rp b) :
    LoopContinues m (httpParseRequest h rp b) (httpParseRequest h rp (b ++ m)) ∧
        Keeps rp (httpParseRequest h rp b) := by
  induction n using Nat.strong_induction_on generalizing h rp b with
  | _ n ih =>
    have hcall := callHandler_continues hh hready m
    have hkeep := callHandler_keeps hh hready
    have hshort := callHandler_shortens h rp b
    rw [httpParseRequest_eq h rp b, httpParseRequest_eq h rp (b ++ m)]
    cases hr : callHandler h rp b with
    | ok rp' b' =>
      rw [hr] at hcall hkeep
      obtain ⟨hsame, hname, hvalue⟩ := hkeep
      have hlt := hshort rp' b' (.inl hr)
      rw [hcall]
      obtain ⟨hloop, hkeep'⟩ := ih b'.length (by omega) (le_refl _)
        (show ParseHandler.fieldName ≠ .requestLine by simp)
        (show Ready .fieldName rp' b' from ⟨by simp [hname], hvalue⟩)
      refine ⟨hloop, ?_⟩
      exact hkeep'.trans hsame
    | again h' rp' b' =>
      rw [hr] at hcall hkeep
      refine ⟨?_, hkeep⟩
      show (afterCall (callHandler h rp (b ++ m))).erase = _
      rw [httpParseRequest_eq]
      exact afterCall_erase hcall
    | done rp' b' =>
      rw [hr] at hcall hkeep
      refine ⟨?_, hkeep⟩
      show afterCall (callHandler h rp (b ++ m)) = _
      rw [hcall]
      rfl
    | error c rp' => ?_
    rw [hr] at hcall
    refine ⟨?_, trivial⟩
    rcases hcall with hc | hc
    · exact Or.inl hc
    · exact Or.inr (afterCall_erase (show _ = (ParseResult.error c {}).erase from hc))

theorem httpParseRequest_withFlags (n : ℕ) {h : ParseHandler} {rp rp' : RequestParse} {b : Bytes}
    (hn : b.length ≤ n) (hh : h ≠ .requestLine) (hf : rp' = rp.withFlags f) :
    httpParseRequest h rp' b = (httpParseRequest h rp b).withFlags f := by
  induction n using Nat.strong_induction_on generalizing h rp rp' b with
  | _ n ih =>
    have hshort := callHandler_shortens h rp b
    rw [httpParseRequest_eq, httpParseRequest_eq, callHandler_withFlags hh hf]
    cases hr : callHandler h rp b with
    | ok rp1 b1 =>
      have hlt := hshort rp1 b1 (.inl hr)
      exact ih b1.length (by omega) (le_refl _) (by simp) rfl
    | again | done | error => rfl

/-- The result of an incremental parse against the result of a parse of
everything at once. -/
def Matches : ParseResult → ParseResult → Prop
  | .done a b, .done a' b' => b' = b ∧ Agrees a a'
  | .error c _, .error c' _ => c' = c
  | _, _ => False

def StepMatches (whole : ParseResult) : ParseResult → Prop
  | .again h b p => h ≠ .requestLine ∧ ∃ a, whole = .again h a p ∧ Agrees a b ∧ Ready h a p
  | r => Matches whole r

theorem Agrees.withFlags {a b : RequestParse} (h : Agrees a b) (hsame : a.SameLine rp) :
    Agrees rp (rp.withFlags b.flags) where
  same := rfl
  quoted hq := h.quoted (by rwa [← hsame.2])
  exact hsp hq := by
    rw [hsame.2]
    exact h.exact (by rwa [← hsame.1]) hq

theorem stepMatches_fields {a b : RequestParse} (hagree : Agrees a b)
    (hh : h ≠ .requestLine) {p : Bytes} (hready : Ready h a p) {whole : ParseResult}
    (hwhole : whole.erase = (httpParseRequest h a p).erase) :
    StepMatches whole (httpParseRequest h b p) := by
  rw [httpParseRequest_withFlags p.length (le_refl _) hh hagree.eq_withFlags]
  obtain ⟨hloop, hkeep⟩ := httpParseRequest_continues [] p.length (le_refl _) hh hready
  cases hr : httpParseRequest h a p with
  | ok rp q =>
    rw [hr] at hloop
    exact hloop.elim
  | again h' rp q =>
    rw [hr] at hkeep hwhole
    obtain ⟨hsame, hh', hready'⟩ := hkeep
    have hw : whole = .again h' rp q := by
      cases whole <;> simp_all [ParseResult.erase]
    exact ⟨hh', rp, hw, hagree.withFlags hsame, hready'⟩
  | done rp q =>
    rw [hr] at hkeep hwhole
    have hw : whole = .done rp q := by
      cases whole <;> simp_all [ParseResult.erase]
    subst hw
    exact ⟨rfl, hagree.withFlags hkeep⟩
  | error c rp => ?_
  rw [hr] at hwhole
  cases whole <;> simp_all [ParseResult.erase, StepMatches, Matches, ParseResult.withFlags]

/-! ### The parser on a whole request -/

structure Fresh (rp : RequestParse) : Prop where
  flags : rp.flags = {}
  name : rp.fieldName = []
  value : rp.fieldValue = []

theorem fresh_init (d f e : Bool) : Fresh (httpParseRequestInit d f e) := ⟨rfl, rfl, rfl⟩

/-- A complete line, in the bytes and with more behind them. -/
theorem scanLine_line
    (h : scanLine b = (method, t, .line l rest)) : l.scan.targetEnd ≤ t.length ∧
      (∃ t0, t = 0x2F :: t0 ∧ scanTarget .target 1 {} t0 = .line l rest) ∧
      ∀ m, scanLine (b ++ m) = (method, t ++ m, .line l (rest ++ m)) := by
  rcases scanLine_cases b with hag | hinv | ⟨method', t0, hall⟩
  · rw [h] at hag
    cases hag
  · have := hinv []
    rw [append_nil, h] at this
    cases this
  have h0 := hall []
  rw [append_nil, append_nil, h, Prod.mk.injEq, Prod.mk.injEq] at h0
  obtain ⟨rfl, rfl, hline⟩ := h0
  obtain ⟨⟨hl, -⟩ | hle, -⟩ := scanTarget_line t0 .target 1 {} (by simp) hline.symm
  · cases hl
  refine ⟨by rw [length_cons]; omega, ⟨t0, rfl, hline.symm⟩, fun m => ?_⟩
  have hstable := scanTarget_stable m t0 .target 1 {} (by rw [← hline]; rintro ⟨f, hf⟩; cases hf)
  rw [hall m, hstable, ← hline]
  rfl

theorem setLine_append (rp : RequestParse)
    (h : l.scan.targetEnd ≤ t.length) (m : Bytes) :
    rp.setLine method (t ++ m) l = rp.setLine method t l := by
  simp only [RequestParse.setLine, take_append_of_le_length h]

/-- **The direct split.**  The path and the arguments of a line that raises no
flag are those that normalising its target gives, whatever `encoded_slashes`
is set to. -/
theorem setLine_eq_normalised (es : Bool) (rp : RequestParse)
    (hline : scanLine b = (method, t, .line l rest))
    (hflags : rp.flags.or l.scan.flags = {}) :
    ∃ rp' r, rp.setLine method t l = some rp' ∧ rp'.target = t.take l.scan.targetEnd ∧
      httpParseComplexTarget es rp'.target = some r ∧
      rp'.path = r.path ∧ rp'.args = r.args.getD rp.args := by
  have hnone : ((rp.flags.or l.scan.flags).complexTarget ||
      (rp.flags.or l.scan.flags).quotedTarget) = false := by rw [hflags]; rfl
  obtain ⟨-, ⟨t0, rfl, hscan⟩, -⟩ := scanLine_line hline
  refine ⟨_, _, @setLine_of_noFlags _ _ _ rp _ hnone, rfl,
    httpParseComplexTarget_plain es hscan (TargetFlags.or_eq_false hnone).2, ?_, ?_⟩ <;>
    cases l.scan.args <;> rfl

/-- A line with arguments. -/
theorem setLine_arguments :
    let line : RequestLine := ⟨{ args := some 3, rest := true, targetEnd := 5 }, str "HTTP/1.1"⟩
    scanLine (str "GET /a?b= HTTP/1.1\n") = (str "GET", str "/a?b= HTTP/1.1\n", .line line []) ∧
    ∃ rp' r, RequestParse.setLine {} (str "GET") (str "/a?b= HTTP/1.1\n") line = some rp' ∧
      rp'.target = str "/a?b=" ∧ httpParseComplexTarget false rp'.target = some r ∧
      rp'.path = r.path ∧ rp'.args = r.args.getD [] := by
  intro line
  have hline : scanLine (str "GET /a?b= HTTP/1.1\n") =
      (str "GET", str "/a?b= HTTP/1.1\n", .line line []) := by decide
  exact ⟨hline, setLine_eq_normalised false {} hline rfl⟩

theorem httpParseRequest_line (rp : RequestParse)
    (h : scanLine b = (method, t, .line l rest)) : httpParseRequest .requestLine rp b =
      match rp.setLine method t l with
      | none => .error .invalid rp
      | some rp' => httpParseRequest .fieldName rp' rest := by
  have hcall : callHandler .requestLine rp b = match rp.setLine method t l with
      | none => .error .invalid rp
      | some rp' => parseFieldName rp' rest := by
    show parseRequestLine rp b = _
    rewrite [parseRequestLine, h]
    rfl
  rw [httpParseRequest_eq, hcall]
  cases rp.setLine method t l with
  | none => rfl
  | some rp' => exact (httpParseRequest_eq .fieldName rp' rest).symm

theorem setLine_keeps
    (h : rp.setLine method t l = some rp') :
    rp'.fieldName = rp.fieldName ∧ rp'.fieldValue = rp.fieldValue ∧
      rp'.fieldHash = rp.fieldHash ∧ rp'.fields = rp.fields ∧
      rp'.skipField = rp.skipField ∧ rp'.discardUnsafeFields = rp.discardUnsafeFields := by
  simp only [RequestParse.setLine] at h
  split at h
  · obtain ⟨r, -, rfl⟩ := Option.map_eq_some_iff.mp h
    exact ⟨rfl, rfl, rfl, rfl, rfl, rfl⟩
  · split at h <;> (cases h; exact ⟨rfl, rfl, rfl, rfl, rfl, rfl⟩)

/-- The record behind a complete line is ready for its fields. -/
theorem ready_setLine (hrp : Fresh rp)
    (h : rp.setLine method t l = some rp') : Ready .fieldName rp' rest := by
  obtain ⟨hname, hvalue, -⟩ := setLine_keeps h
  exact ⟨by simp [hname, hrp.name], hvalue.trans hrp.value⟩

theorem httpParseRequest_again (rp : RequestParse)
    (h : (scanLine b).2.2 = .again f) : httpParseRequest .requestLine rp b =
      .again .requestLine (rp.withFlags (rp.flags.or f)) b := by
  rcases hb : scanLine b with ⟨method, t, r⟩
  rw [hb] at h
  obtain rfl : r = .again f := h
  have hcall : callHandler .requestLine rp b =
      .again .requestLine (rp.withFlags (rp.flags.or f)) b := by
    show parseRequestLine rp b = _
    rw [parseRequestLine, hb]
    rfl
  rw [httpParseRequest_eq, hcall]
  rfl

def LineScan.error : LineScan → Option ParseError
  | .invalid => some .invalid
  | .unsupportedVersion _ => some .unsupportedVersion
  | _ => none

theorem httpParseRequest_lineError (rp : RequestParse) {c : ParseError}
    (h : (scanLine b).2.2.error = some c) :
    ∃ rp', httpParseRequest .requestLine rp b = .error c rp' := by
  rcases hb : scanLine b with ⟨method, t, r⟩
  rw [hb] at h
  have hcall : ∃ rp', callHandler .requestLine rp b = .error c rp' := by
    show ∃ rp', parseRequestLine rp b = .error c rp'
    rw [parseRequestLine, hb]
    cases r with
    | again | line => cases h
    | invalid =>
      obtain rfl : ParseError.invalid = c := Option.some.inj h
      exact ⟨_, rfl⟩
    | unsupportedVersion l => ?_
    obtain rfl : ParseError.unsupportedVersion = c := Option.some.inj h
    exact ⟨_, rfl⟩
  obtain ⟨rp', hrp'⟩ := hcall
  exact ⟨rp', by rw [httpParseRequest_eq, hrp']; rfl⟩

theorem scanLine_ends (b : Bytes) :
    (∃ f, (scanLine b).2.2 = .again f) ∨ (∃ c, (scanLine b).2.2.error = some c) ∨
      ∃ method t l rest, scanLine b = (method, t, .line l rest) := by
  rcases hb : scanLine b with ⟨method, t, r⟩
  cases r with
  | again f => exact Or.inl ⟨f, rfl⟩
  | invalid | unsupportedVersion => exact Or.inr (Or.inl ⟨_, rfl⟩)
  | line l rest => exact Or.inr (Or.inr ⟨method, t, l, rest, rfl⟩)

/-- **The parser on a whole request**, and the same with more bytes behind,
once the request line is complete. -/
theorem wholeParse_continues (hrp : Fresh rp) (b m : Bytes) : (∃ f, (scanLine b).2.2 = .again f) ∨
      LoopContinues m (httpParseRequest .requestLine rp b)
        (httpParseRequest .requestLine rp (b ++ m)) := by
  rcases scanLine_ends b with hag | ⟨c, hc⟩ | ⟨method, t, l, rest, hline⟩
  · exact Or.inl hag
  · have hwaits : ¬ (scanLine b).2.2.Waits := by
      rintro ⟨f, hf⟩
      rw [hf] at hc
      cases hc
    have hc' : (scanLine (b ++ m)).2.2.error = some c := by
      rw [scanLine_stable hwaits, ← hc]
      cases (scanLine b).2.2 <;> rfl
    obtain ⟨rp1, h1⟩ := httpParseRequest_lineError rp hc
    obtain ⟨rp2, h2⟩ := httpParseRequest_lineError rp hc'
    refine Or.inr ?_
    rw [h1, h2]
    exact Or.inr rfl
  obtain ⟨hle, -, hmore⟩ := scanLine_line hline
  refine Or.inr ?_
  rw [httpParseRequest_line rp hline, httpParseRequest_line rp (hmore m), setLine_append rp hle]
  cases hset : rp.setLine method t l with
  | none => exact Or.inr rfl
  | some rp' => ?_
  exact (httpParseRequest_continues m rest.length (le_refl _) (by simp) (ready_setLine hrp hset)).1

/-! ### The reads of a connection -/

/-- The state of the parser after the bytes `t`, against the parse of `t` at
once.  While the request line is incomplete it is scanned again on every
read, so the flags stem from scans of prefixes of `t`. -/
def Tracks (rp : RequestParse) (s : ParserState) (t : Bytes) : Prop :=
  (s.handler = .requestLine ∧ s.pending = t ∧ (∃ f, (scanLine t).2.2 = .again f) ∧
    s.rp = rp.withFlags s.rp.flags ∧
    (s.rp.flags.quotedTarget = true →
      ∃ x f, x <+: t ∧ (scanLine x).2.2 = .again f ∧ f.quotedTarget = true)) ∨
  (s.handler ≠ .requestLine ∧ ∃ a, httpParseRequest .requestLine rp t =
      .again s.handler a s.pending ∧ Agrees a s.rp ∧ Ready s.handler a s.pending)

/-- The result of the reads `reads`: that of their bytes parsed at once, or a
field too large at the end of one of the reads. -/
def Settled (rp : RequestParse) (r : ParseResult) (reads : List Bytes) : Prop :=
  Matches (httpParseRequest .requestLine rp reads.flatten) r ∨
    (∃ rp', r = .error .tooLargeField rp') ∧
      ∃ k rp', httpParseRequest .requestLine rp (reads.take k).flatten =
        .error .tooLargeField rp'

/-- What one more read does: the state tracks, or the result is settled. -/
def ReadHolds (rp : RequestParse) (t : Bytes) : ParseResult → Prop
  | .again h rp' b => Tracks rp ⟨h, rp', b⟩ t
  | r => Matches (httpParseRequest .requestLine rp t) r

theorem ReadHolds.of_step
    (h : StepMatches (httpParseRequest .requestLine rp t) r) : ReadHolds rp t r := by
  cases r with
  | again h' rp' b => exact Or.inr h
  | ok | done | error => exact h

/-- One read while the request line is incomplete. -/
theorem readHolds_line (hrp : Fresh rp)
    (hf : f.quotedTarget = true →
      ∃ x g, x <+: t ∧ (scanLine x).2.2 = .again g ∧ g.quotedTarget = true) (m : Bytes) :
    ReadHolds rp (t ++ m) (httpParseRequest .requestLine (rp.withFlags f) (t ++ m)) := by
  rcases scanLine_ends (t ++ m) with ⟨g, hg⟩ | ⟨c, hc⟩ | ⟨method, t', l, rest, hline⟩
  · -- still incomplete
    rw [httpParseRequest_again _ hg]
    refine Or.inl ⟨rfl, rfl, ⟨g, hg⟩, rfl, fun hq => ?_⟩
    have hq' : f.quotedTarget = true ∨ g.quotedTarget = true := by
      simpa [RequestParse.withFlags, TargetFlags.or] using hq
    rcases hq' with hq' | hq'
    · obtain ⟨x, g', hx, hx', hg'⟩ := hf hq'
      exact ⟨x, g', hx.trans (prefix_append t m), hx', hg'⟩
    · exact ⟨t ++ m, g, prefix_refl _, hg, hq'⟩
  · obtain ⟨rp1, h1⟩ := httpParseRequest_lineError rp hc
    obtain ⟨rp2, h2⟩ := httpParseRequest_lineError (rp.withFlags f) hc
    rw [h2]
    show Matches (httpParseRequest .requestLine rp (t ++ m)) _
    rw [h1]
    rfl
  -- the line is complete, and its record does not depend on the flags
  obtain ⟨-, ⟨t0, rfl, hscan⟩, -⟩ := scanLine_line hline
  have hquoted : 0x20 ∉ (0x2F :: t0).take l.scan.targetEnd → f.quotedTarget = true →
      l.scan.flags.quotedTarget = true := by
    intro hsp hq
    obtain ⟨x, g, ⟨y, rfl⟩, hx, hg⟩ := hf hq
    rw [append_assoc] at hline
    exact (scanLine_flags hx hline hsp).2 hg
  have hfresh : rp.withFlags {} = rp := by rw [← hrp.flags]; rfl
  have hagrees := setLine_agrees rp f method hscan hquoted
  rw [hfresh] at hagrees
  apply ReadHolds.of_step
  rw [httpParseRequest_line rp hline, httpParseRequest_line (rp.withFlags f) hline]
  rcases hagrees with ⟨h1, h2⟩ | ⟨a, b, h1, h2, hab⟩
  · rw [h1, h2]
    rfl
  rw [h1, h2]
  exact stepMatches_fields hab (by simp) (ready_setLine hrp h1) rfl

theorem readHolds_step (hrp : Fresh rp) {s : ParserState}
    (h : Tracks rp s t) (m : Bytes) :
    ReadHolds rp (t ++ m) (httpParseRequest s.handler s.rp (s.pending ++ m)) := by
  rcases h with ⟨hh, hp, -, hflags, hq⟩ | ⟨hh, a, hwhole, hagree, hready⟩
  · rw [hh, hp, hflags]
    exact readHolds_line hrp hq m
  apply ReadHolds.of_step
  refine stepMatches_fields hagree hh ?_ ?_
  · -- more bytes behind do not take away what has been scanned
    cases hs : s.handler with
    | requestLine => exact absurd hs hh
    | fieldName =>
      rw [hs] at hready
      exact ⟨le_trans hready.1 (by simp), hready.2⟩
    | fieldValue =>
      rw [hs] at hready
      refine le_trans hready ?_
      rw [dropWhile_append]
      split
      · rename_i hempty
        simp [isEmpty_iff.mp hempty]
      · simp
    | fieldEnd => trivial
  · rcases wholeParse_continues hrp t m with ⟨f, hf⟩ | hcont
    · rw [httpParseRequest_again rp hf] at hwhole
      injection hwhole with hs
      exact absurd hs.symm hh
    rw [hwhole] at hcont
    exact hcont

theorem settled_rest (hrp : Fresh rp) (r : ParseResult)
    (seen more : List Bytes) (h : Settled rp r seen) :
    Settled rp (r.leave more.flatten) (seen ++ more) := by
  rcases h with hmatch | ⟨⟨rp', rfl⟩, k, rp'', hk⟩
  · rw [Settled, flatten_append]
    have hcont := wholeParse_continues hrp seen.flatten more.flatten
    cases hw : httpParseRequest .requestLine rp seen.flatten with
    | ok | again => rw [hw] at hmatch; cases r <;> exact hmatch.elim
    | done a b =>
      rw [hw] at hmatch
      cases r with
      | done a' b' =>
        obtain ⟨rfl, hab⟩ := hmatch
        rcases hcont with ⟨f, hf⟩ | hcont
        · rw [httpParseRequest_again rp hf] at hw
          cases hw
        rw [hw] at hcont
        refine Or.inl ?_
        rw [hcont]
        exact ⟨rfl, hab⟩
      | ok | again | error => exact hmatch.elim
    | error c a => ?_
    rw [hw] at hmatch
    cases r with
    | error c' a' =>
      obtain rfl : c' = c := hmatch
      rcases hcont with ⟨f, hf⟩ | hcont
      · rw [httpParseRequest_again rp hf] at hw
        cases hw
      rw [hw] at hcont
      rcases hcont with rfl | hcont
      · -- too large already: the bytes behind are not looked at
        exact Or.inr ⟨⟨a', rfl⟩, seen.length, a, by simpa using hw⟩
      refine Or.inl ?_
      cases hw' : httpParseRequest .requestLine rp (seen.flatten ++ more.flatten) with
      | error c'' a'' =>
        rw [hw'] at hcont
        simp only [ParseResult.erase, ParseResult.error.injEq, and_true] at hcont
        exact hcont.symm
      | ok | again | done =>
        rw [hw'] at hcont
        cases hcont
    | ok | again | done => exact hmatch.elim
  · refine Or.inr ⟨⟨rp', rfl⟩, min k seen.length, rp'', ?_⟩
    rw [take_append_of_le_length (min_le_right _ _), ← hk]
    congr 2
    rcases Nat.le_total k seen.length with hle | hle
    · rw [min_eq_left hle]
    · rw [min_eq_right hle, take_of_length_le hle, take_length]

/-- The result of incremental parsing against that of parsing everything at
once: the same code, and for a complete header the same request line, the
same fields and the same bytes left.  The flag of a quoted target is never
lost, and it is the same for a target without spaces. -/
def SameRequest : ParseResult → ParseResult → Prop
  | .done a b, .done a' b' =>
    a'.method = a.method ∧ a'.target = a.target ∧ a'.path = a.path ∧ a'.args = a.args ∧
      a'.version = a.version ∧ a'.fields = a.fields ∧ b' = b ∧
      (a.flags.quotedTarget = true → a'.flags.quotedTarget = true) ∧
      (0x20 ∉ a.target → a'.flags.quotedTarget = a.flags.quotedTarget)
  | .error c _, .error c' _ => c' = c
  | .again h _ b, .again h' _ b' => h' = h ∧ b' = b
  | _, _ => False

theorem Matches.sameRequest {r' : ParseResult} (h : Matches r r') : SameRequest r r' := by
  cases r with
  | done a b =>
    cases r' with
    | done a' b' =>
      obtain ⟨rfl, hab⟩ := h
      have hsame := hab.eq_withFlags
      refine ⟨?_, ?_, ?_, ?_, ?_, ?_, rfl, hab.quoted, fun hsp => ?_⟩
      iterate 6 (rw [hsame]; rfl)
      rw [Bool.eq_iff_iff]
      exact ⟨hab.exact hsp, hab.quoted⟩
    | ok | again | error => exact h.elim
  | error c a => cases r' <;> exact h
  | ok | again => cases r' <;> exact h.elim

/-- The rule for the reads of a connection: after any of them the state tracks
the bytes so far, or the result is settled. -/
theorem parseReads_holds (hrp : Fresh rp) (hflags : rp.flags = {})
    (reads : List Bytes) : Holds (fun s seen => Tracks rp s (flatten seen)) (Settled rp) reads
      (parseReads { rp := rp } reads) := by
  have hstep : ∀ s seen read, Tracks rp s (flatten seen) →
      Holds (fun s seen => Tracks rp s (flatten seen)) (Settled rp) (seen ++ [read])
        (parseRead s read) := by
    intro s seen read h
    have hread := readHolds_step hrp h read
    have hseen : (seen ++ [read]).flatten = flatten seen ++ read := by simp
    rw [← hseen] at hread
    unfold parseRead
    cases hr : httpParseRequest s.handler s.rp (s.pending ++ read) with
    | again h' rp' b =>
      rw [hr] at hread
      exact hread
    | ok | done | error =>
      rw [hr] at hread
      exact Or.inl hread
  have hinit : Tracks rp { rp := rp } (flatten []) :=
    Or.inl ⟨rfl, rfl, ⟨{}, rfl⟩, rfl, fun hq => by simp [hflags] at hq⟩
  exact feed_rule parseRead ParseResult.leave _ _ hstep (settled_rest hrp) reads hinit

/-- A complete header of some reads is one of their bytes parsed at once. -/
theorem done_of_parseReads {d f e : Bool} {reads : List Bytes}
    (h : parseReads { rp := httpParseRequestInit d f e } reads = .stop (.done rp rest)) :
    ∃ a, httpParseRequest .requestLine (httpParseRequestInit d f e) reads.flatten = .done a rest ∧
      Agrees a rp := by
  have hrun := parseReads_holds (fresh_init d f e) rfl reads
  rw [h] at hrun
  rcases hrun with hmatch | ⟨⟨rp', hrp'⟩, -⟩
  · cases hw : httpParseRequest .requestLine (httpParseRequestInit d f e) reads.flatten with
    | done a b =>
      rw [hw] at hmatch
      obtain ⟨rfl, hab⟩ := hmatch
      exact ⟨a, rfl, hab⟩
    | ok | again | error =>
      rw [hw] at hmatch
      exact hmatch.elim
  · cases hrp'

/-- **Incremental parsing** of any bytes in any reads ends as parsing all bytes
at once does: the parser asks for more in the same state, or stops with the
same result.  The only other outcome is a field that is too large at the end
of some read, where the bytes up to that read alone are too large a field as
well. -/
theorem parseReads_agrees (d f e : Bool) (reads : List Bytes) :
    let rp := httpParseRequestInit d f e
    let whole := httpParseRequest .requestLine rp reads.flatten
    match parseReads { rp := rp } reads with
    | .more s => SameRequest whole (.again s.handler s.rp s.pending)
    | .stop r =>
      SameRequest whole r ∨
        (∃ rp', r = .error .tooLargeField rp') ∧
          ∃ k rp', httpParseRequest .requestLine rp (reads.take k).flatten =
            .error .tooLargeField rp' := by
  intro rp whole
  have hrun : Holds (fun s seen => Tracks rp s (flatten seen)) (Settled rp) reads
      (parseReads { rp := rp } reads) := parseReads_holds (fresh_init d f e) rfl reads
  cases hr : parseReads { rp := rp } reads with
  | stop r =>
    rw [hr] at hrun
    exact hrun.imp_left Matches.sameRequest
  | more s => ?_
  rw [hr] at hrun
  rcases hrun with ⟨hh, hp, ⟨f, hf⟩, -⟩ | ⟨-, a, hwhole, -⟩
  · simp only [whole, httpParseRequest_again rp hf]
    exact ⟨hh, hp⟩
  · simp only [whole, hwhole]
    exact ⟨rfl, rfl⟩

/-- A field name of 256 bytes that ends in a space is invalid when it is parsed
at once; when a read ends before the space, it is too large first. -/
theorem parseReads_longName :
    let rp := httpParseRequestInit false false false
    let line := { rp with
      method := str "GET", target := str "/", path := str "/", version := str "HTTP/1.1" }
    let reads := [str "GET / HTTP/1.1\r\n" ++ replicate 256 0x61, str " "]
    httpParseRequest .requestLine rp reads.flatten = .error .invalid line ∧
      parseReads { rp := rp } reads = .stop (.error .tooLargeField line) := by
  decide +kernel

end FreeUnit
