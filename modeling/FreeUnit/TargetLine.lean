/-
Request lines as text: what a complete line looked like, and a line that was
written read again.

* `lineFits_of_parse`, `httpParseRequest_write` — what is parsed can be written,
  and what is written is parsed, for a whole request line.
-/
import FreeUnit.FieldLines

namespace FreeUnit

open List Option

def versionText : Bytes := str " HTTP/1.1" ++ crlf

def isBadChar (c : UInt8) : Bool := httpTargetChars c == .bad

structure TargetFits (target : Bytes) : Prop where
  chars : ∀ c ∈ target, isBadChar c = false
  last : target.getLast? ≠ some 0x20

variable {c : UInt8} {t : Bytes}

theorem TargetFits.tail (h : TargetFits (c :: t)) : TargetFits t := by
  refine ⟨fun d hd => h.chars d (mem_cons_of_mem _ hd), fun hlast => h.last ?_⟩
  cases t with
  | nil => cases hlast
  | cons d t' => rwa [getLast?_cons_cons]

theorem TargetFits.cons (hc : isBadChar c = false) (hlast : c = 0x20 → t ≠ []) (h : TargetFits t) :
    TargetFits (c :: t) := by
  refine ⟨forall_mem_cons.mpr ⟨hc, h.chars⟩, ?_⟩
  cases t with
  | nil => simpa using hlast
  | cons d t => ?_
  rw [getLast?_cons_cons]
  exact h.last

/-! ### A complete line -/

/-- What follows the target: spaces, a version, the end of the line. -/
def LineEnd (s rest : Bytes) (spaces : ℕ) : Prop :=
  ∃ v eol, s = List.replicate spaces 0x20 ++ v ++ eol ++ rest ∧ isHttp1Version v = true ∧
    (eol = crlf ∨ eol = [0x0A])

variable {s rest : Bytes} {l : RequestLine}

theorem versionEnd_text {st : TargetScan} (h8 : s[8]? = some 0x0D ∨ s[8]? = some 0x0A)
    (h : versionEnd st s = .line l rest) : LineEnd s rest 0 := by
  have hv := (versionEnd_line h).2
  simp only [versionEnd, if_pos hv] at h
  have hsplit := take_append_drop 8 s
  have hget : (s.drop 8)[0]? = s[8]? := by rw [getElem?_drop]
  cases hd : s.drop 8 with
  | nil =>
    rw [hd] at h
    cases h
  | cons c s' => ?_
  rw [hd] at h hsplit hget
  rw [← hget] at h8
  refine ⟨s.take 8, ?_⟩
  by_cases hc : c = 0x0D
  · subst hc
    cases s' with
    | nil => cases h
    | cons c' s'' => ?_
    by_cases hc' : c' = 0x0A
    · subst hc'
      simp only [if_true] at h
      cases h
      exact ⟨crlf, by simpa [crlf] using hsplit.symm, hv, Or.inl rfl⟩
    simp only [if_true, if_neg hc'] at h
    cases h
  have hc' : c = 0x0A := by simpa [hc] using h8
  subst hc'
  simp only [if_neg hc] at h
  cases h
  exact ⟨[0x0A], by simpa using hsplit.symm, hv, Or.inr rfl⟩

theorem LineEnd.cons_space {k : ℕ} (h : LineEnd s rest k) : LineEnd (0x20 :: s) rest (k + 1) := by
  obtain ⟨v, eol, rfl, hv⟩ := h
  exact ⟨v, eol, by simp [replicate_succ], hv⟩

/-- **A complete line as text.**  Behind a space the line may be at its end
already; otherwise the rest of the target comes first. -/
theorem scanTarget_text (s : Bytes) (label : TargetLabel) (p : ℕ) (st : TargetScan)
    (h : scanTarget label p st s = .line l rest) :
    (label = .spaceAfterTarget ∧ l.scan.targetEnd = st.targetEnd ∧ ∃ k, LineEnd s rest k) ∨
    ∃ t more k, s = t ++ more ∧ l.scan.targetEnd = p + t.length ∧ TargetFits t ∧
      (label = .spaceAfterTarget ∨ s.head? ≠ some 0x20 → t ≠ []) ∧ LineEnd more rest (k + 1) := by
  -- a byte of the target in front of the rest of it
  have hcons : ∀ {label : TargetLabel} {c : UInt8} {s t more : Bytes} {p k : ℕ},
      isBadChar c = false → (c = 0x20 → t ≠ []) → s = t ++ more →
      l.scan.targetEnd = p + 1 + t.length → TargetFits t → LineEnd more rest (k + 1) →
      ∃ t more k, c :: s = t ++ more ∧ l.scan.targetEnd = p + t.length ∧ TargetFits t ∧
        (label = .spaceAfterTarget ∨ (c :: s).head? ≠ some 0x20 → t ≠ []) ∧
        LineEnd more rest (k + 1) := by
    intro label c s t more p k hbad hlast hs hend hfits hline
    refine ⟨c :: t, more, k, by rw [hs]; rfl, ?_, hfits.cons hbad hlast, by simp, hline⟩
    rw [hend, length_cons]
    omega
  refine scanTarget_rule ?_ ?_ ?_ ?_ ?_ s label p st h
  · intro p st s h8 hver
    exact .inl ⟨rfl, congrArg _ (versionEnd_line hver).1, 0, versionEnd_text h8 hver⟩
  · rintro p st s (⟨-, hend, k, hline⟩ | ⟨t, more, k, hs, hend, hfits, hne, hline⟩)
    · exact .inl ⟨rfl, hend, k + 1, hline.cons_space⟩
    · -- a space inside the target
      exact .inr (hcons rfl (fun _ => hne (.inl rfl)) hs hend hfits hline)
  · rintro p st s (⟨-, hend, k, hline⟩ | ⟨t, more, k, hs, hend, hfits, hne, hline⟩)
    · -- the space ends the target
      exact .inr ⟨[], 0x20 :: s, k, rfl, hend, ⟨by simp, by simp⟩, by simp, hline.cons_space⟩
    · exact .inr (hcons rfl (fun _ => hne (.inl rfl)) hs hend hfits hline)
  · rintro p st st' c s hsp hst' (⟨hl, -⟩ | ⟨t, more, k, hs, hend, hfits, -, hline⟩)
    · cases hl
    have hbad : isBadChar c = false := by
      by_contra hbad
      rw [isBadChar, Bool.not_eq_false, beq_iff_eq] at hbad
      simp [targetChar, hbad] at hst'
    exact .inr (hcons hbad (fun h => absurd h hsp) hs hend hfits hline)
  · rintro p st c s hsp (⟨hl, -⟩ | ⟨t, more, k, hs, hend, hfits, hne, hline⟩)
    · cases hl
    · exact .inr ⟨t, more, k, hs, hend, hfits, fun _ => hne (.inr (by simpa using hsp)), hline⟩

/-! ### A line that was written -/

theorem versionText_eq : versionText =
    [0x20, 0x48, 0x54, 0x54, 0x50, 0x2F, 0x31, 0x2E, 0x31, 0x0D, 0x0A] := by decide

/-- The byte nine places behind a space inside a target is no line end. -/
theorem getElem_write (ht : t ≠ []) (hbad : ∀ c ∈ t, isBadChar c = false) (rest : Bytes) :
    ¬ ((t ++ versionText ++ rest)[8]? = some 0x0D ∨ (t ++ versionText ++ rest)[8]? = some 0x0A) := by
  have hpos : 0 < t.length := length_pos_iff.mpr ht
  rw [append_assoc]
  rcases Nat.lt_or_ge 8 t.length with h8 | h8
  · rw [getElem?_append_left h8, getElem?_eq_getElem h8]
    have hc := hbad _ (getElem_mem h8)
    rintro (h | h) <;> · rw [some.inj h] at hc; revert hc; decide
  rw [getElem?_append_right h8, versionText_eq]
  have hlen : 8 - t.length < 8 := by omega
  revert hlen
  generalize 8 - t.length = n
  intro hn
  interval_cases n <;> simp

theorem scanTarget_version (p : ℕ) (st : TargetScan) (rest : Bytes) :
    scanTarget .spaceAfterTarget p st (versionText.drop 1 ++ rest) =
      .line ⟨st, str "HTTP/1.1"⟩ rest := by
  rw [versionText_eq]
  show scanTarget .spaceAfterTarget p st (0x48 :: ([0x54, 0x54, 0x50, 0x2F, 0x31, 0x2E, 0x31,
    0x0D, 0x0A] ++ rest)) = _
  rw [scanTarget_space_version (by simp) (Or.inl (by simp))]
  rfl

/-- **A target that was written is found again**, with the state of a scan of
its bytes. -/
theorem scanTarget_write (rest t : Bytes) (label : TargetLabel) (p : ℕ)
    (st : TargetScan) (hfits : TargetFits t) (hne : label = .spaceAfterTarget → t ≠ []) :
    ∃ l, scanTarget label p st (t ++ versionText ++ rest) = .line l rest ∧
        l.scan.targetEnd = p + t.length := by
  induction t generalizing label p st with
  | nil =>
    cases label with
    | spaceAfterTarget => exact absurd rfl (hne rfl)
    | target => exact ⟨_, scanTarget_version (p + 1) { st with targetEnd := p } rest, rfl⟩
  | cons c t ih => ?_
  have hfits' := hfits.tail
  -- the scan of the target steps over the first byte
  have htarget : ∀ (p : ℕ) (st : TargetScan),
      ∃ l, scanTarget .target p st (c :: (t ++ versionText ++ rest)) = .line l rest ∧
        l.scan.targetEnd = p + (c :: t).length := by
    intro p st
    have hlen : p + 1 + t.length = p + (c :: t).length := by rw [length_cons]; omega
    rcases targetChar_cases c with ⟨hsp, hc⟩ | ⟨-, hc⟩ | ⟨-, hc⟩
    · have ht : t ≠ [] := by
        rintro rfl
        exact hfits.last (by rw [hsp]; rfl)
      obtain ⟨l, hl, hend⟩ := ih .spaceAfterTarget (p + 1) { st with targetEnd := p } hfits'
        fun _ => ht
      exact ⟨l, by simpa only [scanTarget, hc] using hl, hend.trans hlen⟩
    · have hbad := hfits.chars c mem_cons_self
      have := hc p st
      simp only [targetChar] at this
      simp only [isBadChar, beq_eq_false_iff_ne] at hbad
      split at this <;> first | contradiction | (split_ifs at this)
    obtain ⟨st', hst', -⟩ := hc p st
    obtain ⟨l, hl, hend⟩ := ih .target (p + 1) st' hfits' (by simp)
    exact ⟨l, by simpa only [scanTarget, hst'] using hl, hend.trans hlen⟩
  rw [cons_append, cons_append]
  cases label with
  | target => exact htarget p st
  | spaceAfterTarget => ?_
  have hlong : ¬ (t ++ versionText ++ rest).length < 8 := by
    rw [length_append, length_append, versionText_eq]
    simp
    omega
  have h8 := getElem_write (cons_ne_nil c t) hfits.chars rest
  rw [cons_append, cons_append] at h8
  rw [scanTarget_space_long hlong h8]
  by_cases hsp : c = 0x20
  · have ht : t ≠ [] := by
      rintro rfl
      exact hfits.last (by rw [hsp]; rfl)
    obtain ⟨l, hl, hend⟩ := ih .spaceAfterTarget (p + 1) st hfits' fun _ => ht
    rw [if_pos hsp]
    exact ⟨l, hl, by rw [hend, length_cons]; omega⟩
  rw [if_neg hsp]
  exact htarget p st

/-! ### The record behind a line -/

/-- **The path and the arguments of a line** are those of its normalised
target: a target without flags is its own normal form. -/
theorem setLine_target (rp : RequestParse) (hflags : rp.flags = {}) (method : Bytes)
    (h : scanTarget .target 1 {} t = .line l rest) :
    ∃ flags : ComplexTarget → TargetFlags, rp.setLine method (0x2F :: t) l =
      (httpParseComplexTarget rp.encodedSlashes ((0x2F :: t).take l.scan.targetEnd)).map fun r =>
        { rp with
          method := method, target := (0x2F :: t).take l.scan.targetEnd, version := l.version,
          path := r.path, args := r.args.getD rp.args, flags := flags r } := by
  have hrp : rp = rp.withFlags {} := by rw [← hflags]; rfl
  have hor : TargetFlags.or {} l.scan.flags = l.scan.flags := by simp [TargetFlags.or]
  cases hfl : l.scan.flags.complexTarget || l.scan.flags.quotedTarget with
  | true =>
    rw [← hor] at hfl
    refine ⟨fun r => ⟨(TargetFlags.or {} l.scan.flags).complexTarget,
      (TargetFlags.or {} l.scan.flags).quotedTarget || r.quoted⟩, ?_⟩
    conv_lhs => rw [hrp, setLine_of_flags hfl]
  | false => ?_
  rw [← hor] at hfl
  have hnone : l.scan.flags = {} := (TargetFlags.or_eq_false hfl).2
  refine ⟨fun _ => TargetFlags.or {} l.scan.flags, ?_⟩
  conv_lhs => rw [hrp, setLine_of_noFlags hfl]
  rw [httpParseComplexTarget_plain rp.encodedSlashes h hnone]
  cases l.scan.args <;> rfl

structure LineFits (encodedSlashes : Bool) (line : Bytes × Bytes × Bytes × Bytes) : Prop where
  method : ∀ c ∈ line.1, isMethodChar c = true
  slash : line.2.1.head? = some 0x2F
  target : TargetFits line.2.1
  parsed : ∃ r, httpParseComplexTarget encodedSlashes line.2.1 = some r ∧
    line.2.2.1 = r.path ∧ line.2.2.2 = r.args.getD []

/-- The text of a complete request line: line ends, the method, spaces, the
target, and the end of the line. -/
def LineText (s rest method target : Bytes) : Prop :=
  ∃ ends more j k, s = ends ++ method ++ 0x20 :: (List.replicate j 0x20 ++ target ++ more) ∧
    (∀ c ∈ ends, isCrlf c = true) ∧ LineEnd more rest (k + 1)

theorem eq_replicate_of_dropWhile (h : s.dropWhile (· == 0x20) = t) :
    ∃ j, s = replicate j 0x20 ++ t := by
  refine ⟨(s.takeWhile (· == 0x20)).length, ?_⟩
  have hall : s.takeWhile (· == 0x20) = replicate (s.takeWhile (· == 0x20)).length 0x20 :=
    eq_replicate_iff.mpr ⟨rfl, fun c hc => by simpa using mem_takeWhile_imp hc⟩
  rw [← hall, ← h, takeWhile_append_dropWhile]

variable {method : Bytes}

theorem scanLine_text (h : scanLine s = (method, t, .line l rest)) :
    (∀ c ∈ method, isMethodChar c = true) ∧ (t.take l.scan.targetEnd).head? = some 0x2F ∧
      TargetFits (t.take l.scan.targetEnd) ∧ LineText s rest method (t.take l.scan.targetEnd) := by
  rw [scanLine] at h
  -- the method and the space behind it
  cases hm : scanMethod s with
  | none =>
    rw [hm] at h
    cases h
  | some x => ?_
  cases x with
  | none =>
    rw [hm] at h
    cases h
  | some ms => ?_
  obtain ⟨m, s1⟩ := ms
  rw [hm] at h
  -- the slash of the target
  cases hs1 : scanTargetStart s1 with
  | none => simp [hs1] at h
  | some y => ?_
  cases y with
  | none => simp [hs1] at h
  | some t0 => ?_
  simp only [hs1, Prod.mk.injEq] at h
  obtain ⟨rfl, rfl, hscan⟩ := h
  rcases scanTarget_text t0 .target 1 {} hscan with
    ⟨hl, -⟩ | ⟨t1, more, k, rfl, hend, hfits, -, hline⟩
  · cases hl
  have htake : (0x2F :: (t1 ++ more)).take l.scan.targetEnd = 0x2F :: t1 := by
    rw [hend, Nat.add_comm, take_succ_cons, take_left' rfl]
  rw [htake]
  have hmethod : s.dropWhile isCrlf = m ++ 0x20 :: s1 ∧ ∀ c ∈ m, isMethodChar c = true := by
    simp only [scanMethod] at hm
    split at hm
    · cases hm
    rename_i c s2 hdrop
    by_cases hc : c = 0x20
    · rw [if_pos hc] at hm
      simp only [some.injEq, Prod.mk.injEq] at hm
      obtain ⟨rfl, rfl⟩ := hm
      refine ⟨?_, fun c hc => mem_takeWhile_imp hc⟩
      rw [← hc, ← hdrop, takeWhile_append_dropWhile]
    rw [if_neg hc] at hm
    cases hm
  have hstart : s1.dropWhile (· == 0x20) = 0x2F :: (t1 ++ more) := by
    simp only [scanTargetStart] at hs1
    split at hs1
    · cases hs1
    rename_i c s2 hdrop
    by_cases hc : c = 0x2F
    · rw [if_pos hc] at hs1
      cases hs1
      rw [hdrop, hc]
    rw [if_neg hc] at hs1
    cases hs1
  obtain ⟨j, hj⟩ := eq_replicate_of_dropWhile hstart
  refine ⟨hmethod.2, rfl, ⟨?_, ?_⟩, s.takeWhile isCrlf, more, j, k, ?_, ?_, hline⟩
  · intro c hc
    rcases mem_cons.mp hc with rfl | hc
    · rfl
    · exact hfits.chars c hc
  · cases t1 with
    | nil => decide
    | cons c t2 => ?_
    rw [getLast?_cons_cons]
    exact hfits.last
  · have hs := takeWhile_append_dropWhile (p := isCrlf) (l := s)
    rw [hmethod.1, hj] at hs
    simpa using hs.symm
  · exact fun c hc => mem_takeWhile_imp hc

/-- **The line of a parsed request**, and the text it came from. -/
theorem lineFits_of_parse {d f e : Bool} {rp : RequestParse}
    (h : httpParseRequest .requestLine (httpParseRequestInit d f e) s = .done rp rest) :
    LineFits e rp.lineParts ∧ ∃ rest', LineText s rest' rp.method rp.target := by
  obtain ⟨method, t, l, rest', rp', hline, hset, hparse⟩ := line_of_parse h
  have hparts := (fieldsFit_of_line hset hparse).line
  obtain ⟨hmethod, hslash, hfits, htext⟩ := scanLine_text hline
  obtain ⟨-, ⟨t0, rfl, hscan⟩, -⟩ := scanLine_line hline
  obtain ⟨flags, hflags⟩ := setLine_target (httpParseRequestInit d f e) rfl method hscan
  rw [hflags, map_eq_some_iff] at hset
  obtain ⟨r, hr, rfl⟩ := hset
  rw [hparts]
  refine ⟨⟨hmethod, hslash, hfits, r, hr, rfl, rfl⟩, rest', ?_⟩
  rw [show rp.method = method from congrArg Prod.fst hparts,
    show rp.target = _ from congrArg (fun x => x.2.1) hparts]
  exact htext

theorem not_isCrlf_of_isMethodChar (h : isMethodChar c = true) : ¬ isCrlf c = true := by
  grind [isMethodChar, isCrlf]

/-- **A line that was written is read again**: the fields behind it are parsed
on with the path and the arguments of its target. -/
theorem httpParseRequest_write {d f e : Bool} {target : Bytes} {r : ComplexTarget}
    (hmethod : ∀ c ∈ method, isMethodChar c = true) (hslash : target.head? = some 0x2F)
    (hfits : TargetFits target) (hr : httpParseComplexTarget e target = some r) (rest : Bytes) :
    ∃ rp, FieldStart rp ∧ rp.discardUnsafeFields = d ∧ rp.discardFields = f ∧ rp.fields = [] ∧
      rp.lineParts = (method, target, r.path, r.args.getD []) ∧
      httpParseRequest .requestLine (httpParseRequestInit d f e)
        (method ++ 0x20 :: (target ++ versionText ++ rest)) =
        httpParseRequest .fieldName rp rest := by
  obtain ⟨t, rfl⟩ : ∃ t, target = 0x2F :: t := by
    cases target with
    | nil => cases hslash
    | cons c t => exact ⟨t, by rw [some.inj hslash]⟩
  have hfits' := hfits.tail
  obtain ⟨l, hl, hend⟩ := scanTarget_write rest t .target 1 {} hfits' (by simp)
  have htake : (0x2F :: (t ++ versionText ++ rest)).take l.scan.targetEnd = 0x2F :: t := by
    rw [hend, Nat.add_comm, take_succ_cons, append_assoc, take_left' rfl]
  have hmethodScan : scanMethod (method ++ 0x20 :: (0x2F :: t ++ versionText ++ rest)) =
      some (some (method, 0x2F :: t ++ versionText ++ rest)) := by
    have hcrlf : (method ++ 0x20 :: (0x2F :: t ++ versionText ++ rest)).dropWhile isCrlf =
        method ++ 0x20 :: (0x2F :: t ++ versionText ++ rest) := by
      cases method with
      | nil => exact dropWhile_cons_of_neg (by decide)
      | cons c m => ?_
      exact dropWhile_cons_of_neg
        (not_isCrlf_of_isMethodChar (hmethod c mem_cons_self))
    simp only [scanMethod, hcrlf, dropWhile_append_of_pos hmethod, takeWhile_append_of_pos hmethod]
    rw [dropWhile_cons_of_neg (by decide), takeWhile_cons_of_neg (by decide)]
    simp
  have hstart : scanTargetStart (0x2F :: t ++ versionText ++ rest) =
      some (some (t ++ versionText ++ rest)) := rfl
  have hline := scanLine_eq hmethodScan hstart
  rw [hl] at hline
  obtain ⟨flags, hflags⟩ := setLine_target (httpParseRequestInit d f e) rfl method hl
  rw [htake, show (httpParseRequestInit d f e).encodedSlashes = e from rfl, hr, map_some] at hflags
  have hparse := httpParseRequest_line (httpParseRequestInit d f e) hline
  rw [hflags] at hparse
  exact ⟨_, ⟨rfl, rfl, rfl, rfl⟩, rfl, rfl, rfl, rfl, hparse⟩

/-- What is left of a line when the method and the space are cut off. -/
theorem lineText_target {target : Bytes} (hmethod : ∀ c ∈ method, isMethodChar c = true)
    (h : LineText (method ++ 0x20 :: s) rest method target) :
    ∃ more j k, s = replicate j 0x20 ++ target ++ more ∧ LineEnd more rest (k + 1) := by
  obtain ⟨ends, more, j, k, heq, hends, hline⟩ := h
  have hnil : ends = [] := by
    cases ends with
    | nil => rfl
    | cons c ends => ?_
    -- the first byte would be a line end and a byte of the method or a space
    have hc := hends c mem_cons_self
    exfalso
    cases method with
    | nil =>
      obtain rfl : 0x20 = c := by simpa using congrArg head? heq
      exact absurd hc (by decide)
    | cons m method => ?_
    obtain rfl : m = c := by simpa using congrArg head? heq
    exact not_isCrlf_of_isMethodChar (hmethod m mem_cons_self) hc
  subst hnil
  rw [nil_append, append_cancel_left_eq, cons.injEq] at heq
  exact ⟨more, j, k, heq.2, hline⟩

end FreeUnit
