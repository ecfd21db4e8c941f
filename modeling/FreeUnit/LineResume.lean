/-
Resuming the request line.

The request line is scanned from its first byte again on every read; only the
target flags are kept.  So the parser is right about a line if its scan of
the bytes read so far never ends differently than the scan of more bytes
will: that is `scanLine_stable`.  The delicate place is the short path after
a space (fewer than ten bytes left), which decides with less to look at than
the long path of a later call, and even steps over one byte.

* `scanLine_flags` — the flags of an unfinished scan are flags of the complete
  line, provided its target holds no space.
-/
import FreeUnit.HttpParse

namespace FreeUnit

open List

/-! ### One byte of the target -/

/-- Every flag of `f` is set in `g`. -/
def TargetFlags.Le (f g : TargetFlags) : Prop :=
  (f.complexTarget = true → g.complexTarget = true) ∧
    (f.quotedTarget = true → g.quotedTarget = true)

theorem TargetFlags.Le.refl (f : TargetFlags) : f.Le f := ⟨id, id⟩

variable {f : TargetFlags}

theorem TargetFlags.Le.trans {g h : TargetFlags} (hfg : f.Le g) (hgh : g.Le h) : f.Le h :=
  ⟨hgh.1 ∘ hfg.1, hgh.2 ∘ hfg.2⟩

theorem httpTargetChars_iff : ∀ c : UInt8,
    (httpTargetChars c = .space ↔ c = 0x20) ∧ (httpTargetChars c = .hash ↔ c = 0x23) ∧
    (httpTargetChars c = .slash ↔ c = 0x2F) ∧ (httpTargetChars c = .dot ↔ c = 0x2E) ∧
    (httpTargetChars c = .argsMark ↔ c = 0x3F) ∧ (httpTargetChars c = .quoteMark ↔ c = 0x25) := by
  decide +kernel

/-- A byte is a space, a byte that no line may hold, or one the scan steps
over; the state of the scan does not decide which. -/
theorem targetChar_cases (c : UInt8) :
    (c = 0x20 ∧ ∀ p st, targetChar p st c = .space { st with targetEnd := p }) ∨
    (c ≠ 0x20 ∧ ∀ p st, targetChar p st c = .bad) ∨
    (c ≠ 0x20 ∧ ∀ p st, ∃ st', targetChar p st c = .next st' ∧
      st'.targetEnd = st.targetEnd ∧ st.flags.Le st'.flags) := by
  by_cases hsp : c = 0x20
  · exact Or.inl ⟨hsp, fun p st => by simp [targetChar, httpTargetChars, hsp]⟩
  refine Or.inr ?_
  cases ht : httpTargetChars c with
  | space => exact absurd ((httpTargetChars_iff c).1.mp ht) hsp
  | bad => exact Or.inl ⟨hsp, fun p st => by simp [targetChar, ht]⟩
  | hash =>
    refine Or.inr ⟨hsp, fun p st => ?_⟩
    simp only [targetChar, ht]
    exact ⟨_, rfl, rfl, fun _ => rfl, id⟩
  | plain => exact Or.inr ⟨hsp, fun p st => ⟨st, by simp [targetChar, ht], rfl, .refl _⟩⟩
  | slash | dot =>
    refine Or.inr ⟨hsp, fun p st => ?_⟩
    simp only [targetChar, ht]
    split
    · exact ⟨st, rfl, rfl, .refl _⟩
    split
    · exact ⟨_, rfl, rfl, fun _ => rfl, id⟩
    · exact ⟨_, rfl, rfl, .refl _⟩
  | argsMark =>
    refine Or.inr ⟨hsp, fun p st => ?_⟩
    simp only [targetChar, ht]
    split
    · exact ⟨st, rfl, rfl, .refl _⟩
    · exact ⟨_, rfl, rfl, .refl _⟩
  | quoteMark => ?_
  refine Or.inr ⟨hsp, fun p st => ?_⟩
  simp only [targetChar, ht]
  split
  · exact ⟨st, rfl, rfl, .refl _⟩
  · exact ⟨_, rfl, rfl, id, fun _ => rfl⟩

/-! ### Versions -/

/-- Every prefix of a version passes the test of the short path. -/
theorem isVersionPrefix_take {v : Bytes} (h : isHttpVersion v = true) (n : ℕ) :
    isVersionPrefix (v.take n) = true := by
  match v, h with
  | [h, t1, t2, p, slash, major, point, minor], hv =>
    simp only [isHttpVersion, Bool.and_eq_true, beq_iff_eq] at hv
    obtain ⟨⟨⟨hname, hmajor⟩, hpoint⟩, hminor⟩ := hv
    obtain ⟨rfl, rfl, rfl, rfl, rfl⟩ :
        h = 0x48 ∧ t1 = 0x54 ∧ t2 = 0x54 ∧ p = 0x50 ∧ slash = 0x2F := by
      simpa [str] using hname
    subst hpoint
    rcases Nat.lt_or_ge n 8 with hn | hn
    · interval_cases n <;> simp [isVersionPrefix, str, hmajor]
    rw [take_of_length_le (by simpa using hn)]
    simp [isVersionPrefix, str, hmajor, hminor]

theorem isHttpVersion_of_isHttp1Version {v : Bytes} (h : isHttp1Version v = true) :
    isHttpVersion v = true := by
  simp only [isHttp1Version, Bool.and_eq_true] at h
  exact h.1

/-- What passes the test of the short path can be completed to a version. -/
theorem exists_version_append {y : Bytes} (h : isVersionPrefix y = true) (hlen : y.length ≤ 8) :
    ∃ z, isHttpVersion (y ++ z) = true := by
  refine ⟨(str "HTTP/1.1").drop y.length, ?_⟩
  match y, h, hlen with
  | [], _, _ => decide
  | [_], h, _ | [_, _], h, _ | [_, _, _], h, _ | [_, _, _, _], h, _ | [_, _, _, _, _], h, _ =>
    simp [isVersionPrefix, str] at h
    simp [isHttpVersion, str, isDigit, h]
  | [_, _, _, _, _, _], h, _ | [_, _, _, _, _, _, _], h, _ =>
    simp [isVersionPrefix, str] at h
    simp [isHttpVersion, str, h]
    decide
  | [_, _, _, _, _, _, _, _], h, _ =>
    simp [isVersionPrefix, str] at h
    simp [isHttpVersion, str, h]
  | _ :: _ :: _ :: _ :: _ :: _ :: _ :: _ :: _ :: _, _, hlen =>
    simp only [length_cons] at hlen
    omega

variable {x m : Bytes}

/-- The test of the short path is about prefixes. -/
theorem isVersionPrefix_of_append (hlen : (x ++ m).length ≤ 8) (h : isVersionPrefix (x ++ m) = true) :
    isVersionPrefix x = true := by
  obtain ⟨z, hz⟩ := exists_version_append h hlen
  have hp := isVersionPrefix_take hz x.length
  rwa [append_assoc, take_left' rfl] at hp

/-- Bytes that cannot start a version are not the start of one. -/
theorem isHttpVersion_eq_false (hlen : x.length ≤ 8) (h : isVersionPrefix x = false) :
    isHttpVersion ((x ++ m).take 8) = false := by
  by_contra hv
  rw [Bool.not_eq_false] at hv
  have hp := isVersionPrefix_take hv x.length
  rw [take_take, min_eq_left hlen, take_left' rfl] at hp
  rw [hp] at h
  exact Bool.noConfusion h

variable {st : TargetScan} {s : Bytes} {p : ℕ}

theorem versionEnd_of_not_version
    (h : isHttpVersion (s.take 8) = false) : versionEnd st s = .invalid := by
  have h1 : isHttp1Version (s.take 8) = false := by simp [isHttp1Version, h]
  simp [versionEnd, h, h1]

/-! ### The scan of the target, one byte at a time -/

variable {c : UInt8}

theorem scanTarget_space_short (h : s.length < 8) : scanTarget .spaceAfterTarget p st (c :: s) =
      if c = 0x20 then scanTarget .spaceAfterTarget (p + 1) st s
      else if isVersionPrefix (c :: s) then .again st.flags
      else scanTarget .target (p + 1) st s := by
  rw [scanTarget, if_pos h]

/-- After a space: the byte behind a possible version ends a line. -/
theorem scanTarget_space_version (h : ¬ s.length < 8)
    (h8 : (c :: s)[8]? = some 0x0D ∨ (c :: s)[8]? = some 0x0A) :
    scanTarget .spaceAfterTarget p st (c :: s) = versionEnd st (c :: s) := by
  rw [scanTarget, if_neg h, if_pos h8]

theorem scanTarget_space_long (h : ¬ s.length < 8)
    (h8 : ¬ ((c :: s)[8]? = some 0x0D ∨ (c :: s)[8]? = some 0x0A)) :
    scanTarget .spaceAfterTarget p st (c :: s) =
      if c = 0x20 then scanTarget .spaceAfterTarget (p + 1) st s
      else scanTarget .target p st (c :: s) := by
  conv_lhs => rw [scanTarget, if_neg h, if_neg h8]
  rfl

/-- **The short path.**  With fewer than ten bytes left a scan asks for more or
fails; when it fails, every longer scan fails, from whatever state. -/
theorem scanTarget_short (s : Bytes) (label : TargetLabel) (p : ℕ) (st : TargetScan)
    (hlen : s.length ≤ 8) (htarget : label = .target → s.length < 8) :
    (∃ f, scanTarget label p st s = .again f) ∨
        (∀ p' st' m, scanTarget label p' st' (s ++ m) = .invalid) ∧
          scanTarget label p st s = .invalid := by
  induction s generalizing label p st with
  | nil =>
    exact Or.inl ⟨st.flags, by cases label <;> rfl⟩
  | cons c s ih => ?_
  rw [length_cons] at hlen
  -- a byte of the target, when the scan of the bytes behind it is settled
  have hstep : ∀ p st, s.length < 7 → (∃ f, scanTarget .target p st (c :: s) = .again f) ∨
        (∀ p' st' m, scanTarget .target p' st' (c :: s ++ m) = .invalid) ∧
          scanTarget .target p st (c :: s) = .invalid := by
    intro p st hs
    rcases targetChar_cases c with ⟨-, hc⟩ | ⟨-, hc⟩ | ⟨-, hc⟩
    · simp only [cons_append, scanTarget, hc]
      rcases ih .spaceAfterTarget (p + 1) { st with targetEnd := p } (by omega) (by simp) with
        hag | ⟨hall, hnow⟩
      · exact Or.inl hag
      · exact Or.inr ⟨fun p' st' m => hall _ _ m, hnow⟩
    · simp [scanTarget, hc]
    obtain ⟨st1, hst1, -⟩ := hc p st
    simp only [cons_append, scanTarget, hst1]
    rcases ih .target (p + 1) st1 (by omega) (fun _ => by omega) with hag | ⟨hall, hnow⟩
    · exact Or.inl hag
    refine Or.inr ⟨fun p' st' m => ?_, hnow⟩
    obtain ⟨st2, hst2, -⟩ := hc p' st'
    simp only [hst2]
    exact hall _ _ m
  cases label with
  | target => exact hstep p st (by have := htarget rfl; simp at this; omega)
  | spaceAfterTarget => ?_
  rw [scanTarget_space_short (by omega)]
  by_cases hsp : c = 0x20
  · -- a surplus space
    rw [if_pos hsp]
    rcases ih .spaceAfterTarget (p + 1) st (by omega) (by simp) with hag | ⟨hall, hnow⟩
    · exact Or.inl hag
    refine Or.inr ⟨fun p' st' m => ?_, hnow⟩
    by_cases hshort : (s ++ m).length < 8
    · rw [cons_append, scanTarget_space_short hshort, if_pos hsp]
      exact hall _ _ m
    by_cases h8 : (c :: (s ++ m))[8]? = some 0x0D ∨ (c :: (s ++ m))[8]? = some 0x0A
    · rw [cons_append, scanTarget_space_version hshort h8]
      apply versionEnd_of_not_version
      subst hsp
      exact isHttpVersion_eq_false (x := [0x20]) (by simp) (by decide)
    rw [cons_append, scanTarget_space_long hshort h8, if_pos hsp]
    exact hall _ _ m
  rw [if_neg hsp]
  by_cases hver : isVersionPrefix (c :: s) = true
  · exact Or.inl ⟨st.flags, by rw [if_pos hver]⟩
  rw [if_neg hver]
  rw [Bool.not_eq_true] at hver
  rcases ih .target (p + 1) st (by omega) (fun _ => by omega) with hag | ⟨hall, hnow⟩
  · exact Or.inl hag
  refine Or.inr ⟨fun p' st' m => ?_, hnow⟩
  by_cases hshort : (s ++ m).length < 8
  · -- still the short path: the same decision, with more bytes
    have hver' : isVersionPrefix (c :: (s ++ m)) = false := by
      by_contra hv
      rw [Bool.not_eq_false] at hv
      have := isVersionPrefix_of_append (x := c :: s) (m := m)
        (by simpa using hshort) hv
      simp [this] at hver
    rw [cons_append, scanTarget_space_short hshort, if_neg hsp, hver', if_neg (by simp)]
    exact hall _ _ m
  by_cases h8 : (c :: (s ++ m))[8]? = some 0x0D ∨ (c :: (s ++ m))[8]? = some 0x0A
  · rw [cons_append, scanTarget_space_version hshort h8]
    exact versionEnd_of_not_version
      (isHttpVersion_eq_false (x := c :: s) (by simp; omega) hver)
  -- the long path examines the byte the short path stepped over
  rw [cons_append, scanTarget_space_long hshort h8, if_neg hsp]
  rcases targetChar_cases c with ⟨hc, -⟩ | ⟨-, hc⟩ | ⟨-, hc⟩
  · exact absurd hc hsp
  · simp [scanTarget, hc]
  obtain ⟨st1, hst1, -⟩ := hc p' st'
  simp only [scanTarget, hst1]
  exact hall _ _ m

/-! ### A scan that has ended -/

/-- The end of a scan with `m` behind its bytes. -/
def LineScan.extend (m : Bytes) : LineScan → LineScan
  | .line l rest => .line l (rest ++ m)
  | r => r

def LineScan.Waits (r : LineScan) : Prop := ∃ f, r = .again f

theorem versionEnd_stable (hlen : 9 ≤ s.length) (h : ¬ (versionEnd st s).Waits) (m : Bytes) :
    versionEnd st (s ++ m) = (versionEnd st s).extend m := by
  have htake : (s ++ m).take 8 = s.take 8 := take_append_of_le_length (by omega)
  have hdrop : (s ++ m).drop 8 = s.drop 8 ++ m := drop_append_of_le_length (by omega)
  simp only [versionEnd, htake, hdrop] at h ⊢
  by_cases hv1 : isHttp1Version (s.take 8) = true
  · simp only [if_pos hv1] at h ⊢
    match hs : s.drop 8 with
    | [] =>
      have := congrArg length hs
      simp at this
      omega
    | [c] =>
      rw [hs] at h
      by_cases hcr : c = 0x0D
      · exact absurd ⟨st.flags, by simp [hcr]⟩ h
      · simp [hcr, LineScan.extend]
    | c :: c' :: s' =>
      by_cases hcr : c = 0x0D
      · by_cases hlf : c' = 0x0A <;> simp [hcr, hlf, LineScan.extend]
      · simp [hcr, LineScan.extend]
  simp only [if_neg hv1]
  split <;> rfl

/-- **A scan that has ended** ends in the same way with more bytes behind. -/
theorem scanTarget_stable (m s : Bytes) (label : TargetLabel) (p : ℕ) (st : TargetScan)
    (h : ¬ (scanTarget label p st s).Waits) :
    scanTarget label p st (s ++ m) = (scanTarget label p st s).extend m := by
  induction s generalizing label p st with
  | nil =>
    exact absurd ⟨st.flags, by cases label <;> rfl⟩ h
  | cons c s ih => ?_
  have htarget : ∀ p st, ¬ (scanTarget .target p st (c :: s)).Waits →
      scanTarget .target p st (c :: s ++ m) = (scanTarget .target p st (c :: s)).extend m := by
    intro p st h
    rcases targetChar_cases c with ⟨-, hc⟩ | ⟨-, hc⟩ | ⟨-, hc⟩
    · simp only [cons_append, scanTarget, hc] at h ⊢
      exact ih _ _ _ h
    · simp [scanTarget, hc, LineScan.extend]
    obtain ⟨st', hst', -⟩ := hc p st
    simp only [cons_append, scanTarget, hst'] at h ⊢
    exact ih _ _ _ h
  cases label with
  | target => exact htarget p st h
  | spaceAfterTarget => ?_
  by_cases hshort : s.length < 8
  · -- a scan that fails on the short path
    rcases scanTarget_short (c :: s) .spaceAfterTarget p st (by simp; omega) (by simp) with
      hag | ⟨hall, hnow⟩
    · exact absurd hag h
    rw [hall, hnow]
    rfl
  have hlong : ¬ (s ++ m).length < 8 := by simp only [length_append]; omega
  have h8 : (c :: (s ++ m))[8]? = (c :: s)[8]? := by
    rw [← cons_append]
    exact getElem?_append_left (by simp; omega)
  by_cases hv : (c :: s)[8]? = some 0x0D ∨ (c :: s)[8]? = some 0x0A
  · rw [scanTarget_space_version hshort hv] at h ⊢
    rw [cons_append, scanTarget_space_version hlong (h8 ▸ hv), ← cons_append]
    exact versionEnd_stable (by simp; omega) h m
  rw [scanTarget_space_long hshort hv] at h ⊢
  rw [cons_append, scanTarget_space_long hlong (h8 ▸ hv)]
  by_cases hsp : c = 0x20
  · simp only [if_pos hsp] at h ⊢
    exact ih _ _ _ h
  simp only [if_neg hsp] at h ⊢
  exact htarget p st h

variable {b : Bytes}

theorem scanMethod_append {x : Option (Bytes × Bytes)} (h : scanMethod b = some x) (m : Bytes) :
    scanMethod (b ++ m) = some (x.map fun y => (y.1, y.2 ++ m)) := by
  simp only [scanMethod] at h ⊢
  match hb : b.dropWhile isCrlf with
  | [] => simp [hb] at h
  | c :: s =>
    rw [hb] at h
    rw [dropWhile_append_of_eq_cons hb]
    match hs : (c :: s).dropWhile isMethodChar with
    | [] => simp [hs] at h
    | d :: r =>
      rw [hs] at h
      rw [dropWhile_append_of_eq_cons hs, takeWhile_append_of_dropWhile hs]
      simp only [cons_append]
      by_cases hd : d = 0x20
      · simp only [if_pos hd, Option.some.injEq] at h ⊢
        rw [← h]
        rfl
      simp only [if_neg hd, Option.some.injEq] at h ⊢
      rw [← h]
      rfl

theorem scanTargetStart_append {x : Option Bytes} (h : scanTargetStart s = some x)
    (m : Bytes) : scanTargetStart (s ++ m) = some (x.map (· ++ m)) := by
  simp only [scanTargetStart] at h ⊢
  match hs : s.dropWhile (· == 0x20) with
  | [] => simp [hs] at h
  | c :: t =>
    rw [hs] at h
    rw [dropWhile_append_of_eq_cons hs]
    simp only [cons_append]
    by_cases hc : c = 0x2F
    · simp only [if_pos hc, Option.some.injEq] at h ⊢
      rw [← h]
      rfl
    simp only [if_neg hc, Option.some.injEq] at h ⊢
    rw [← h]
    rfl

/-- A scan of the whole line that has reached the target. -/
theorem scanLine_eq {method t : Bytes} (hm : scanMethod b = some (some (method, s)))
    (ht : scanTargetStart s = some (some t)) :
    scanLine b = (method, 0x2F :: t, scanTarget .target 1 {} t) := by
  simp [scanLine, hm, ht]

theorem scanLine_cases (b : Bytes) :
    (scanLine b).2.2 = .again {} ∨ (∀ m, (scanLine (b ++ m)).2.2 = .invalid) ∨
    ∃ method t, ∀ m, scanLine (b ++ m) = (method, 0x2F :: (t ++ m), scanTarget .target 1 {} (t ++ m)) := by
  match hm : scanMethod b with
  | none => exact Or.inl (by simp [scanLine, hm])
  | some none =>
    exact Or.inr (Or.inl fun m => by simp [scanLine, scanMethod_append hm])
  | some (some (method, s)) =>
    match ht : scanTargetStart s with
    | none => exact Or.inl (by simp [scanLine, hm, ht])
    | some none =>
      exact Or.inr (Or.inl fun m => by
        simp [scanLine, scanMethod_append hm, scanTargetStart_append ht])
    | some (some t) =>
      exact Or.inr (Or.inr ⟨method, t, fun m => by
        simp [scanLine, scanMethod_append hm, scanTargetStart_append ht]⟩)

/-- **The scan of a line that has ended** ends in the same way with more bytes
behind. -/
theorem scanLine_stable (h : ¬ (scanLine b).2.2.Waits) (m : Bytes) :
    (scanLine (b ++ m)).2.2 = (scanLine b).2.2.extend m := by
  rcases scanLine_cases b with hag | hinv | ⟨method, t, hall⟩
  · exact absurd ⟨_, hag⟩ h
  · have h0 := hinv []
    rw [append_nil] at h0
    rw [hinv m, h0]
    rfl
  have h0 := hall []
  rw [append_nil, append_nil] at h0
  rw [h0] at h ⊢
  rw [hall m]
  exact scanTarget_stable m t .target 1 {} h

/-! ### What a complete line tells about its target -/

/-- The state of the scan after some bytes of the target, spaces included. -/
def scanBytes : ℕ → TargetScan → Bytes → TargetScan
  | _, st, [] => st
  | p, st, c :: s =>
    match targetChar p st c with
    | .next st' => scanBytes (p + 1) st' s
    | .space _ | .bad => scanBytes (p + 1) st s

def TargetScan.setEnd (st : TargetScan) (e : ℕ) : TargetScan := { st with targetEnd := e }

@[simp] theorem TargetScan.setEnd_flags (st : TargetScan) (e : ℕ) :
    (st.setEnd e).flags = st.flags := rfl

/-- The scan does not look at the end of the target. -/
theorem targetChar_setEnd (p : ℕ) (st : TargetScan) (c : UInt8) (e : ℕ) :
    targetChar p (st.setEnd e) c = match targetChar p st c with
      | .next st' => .next (st'.setEnd e)
      | r => r := by
  simp only [targetChar, TargetScan.setEnd]
  cases httpTargetChars c with
  | space | bad | hash | plain => rfl
  | slash | dot =>
    by_cases hr : st.rest = true
    · simp [hr]
    · by_cases hs : st.afterSlash = p <;> simp [hr, hs]
  | argsMark | quoteMark => by_cases hr : st.rest = true <;> simp [hr]

theorem scanBytes_setEnd (e : ℕ) (s : Bytes) (p : ℕ) (st : TargetScan) :
    scanBytes p (st.setEnd e) s = (scanBytes p st s).setEnd e := by
  induction s generalizing p st with
  | nil => rfl
  | cons c s ih => ?_
  simp only [scanBytes, targetChar_setEnd]
  cases targetChar p st c with
  | next | space | bad => exact ih _ _

variable {rest : Bytes} {l : RequestLine}

theorem versionEnd_line (h : versionEnd st s = .line l rest) :
    l.scan = st ∧ isHttp1Version (s.take 8) = true := by
  simp only [versionEnd] at h
  by_cases hv1 : isHttp1Version (s.take 8) = true
  · refine ⟨?_, hv1⟩
    simp only [if_pos hv1] at h
    split at h
    · cases h
    split at h
    · split at h
      · cases h
      split at h
      · cases h; rfl
      · cases h
    · cases h; rfl
  simp only [if_neg hv1] at h
  split at h <;> cases h

/-- **The rule for complete lines**, by what the scan does with the next byte:
no line ends on the short path. -/
@[elab_as_elim]
theorem scanTarget_rule {motive : TargetLabel → ℕ → TargetScan → Bytes → Prop}
    (hversion : ∀ {p st s}, s[8]? = some 0x0D ∨ s[8]? = some 0x0A → versionEnd st s = .line l rest → motive .spaceAfterTarget p st s)
    (hsurplus : ∀ {p st s}, motive .spaceAfterTarget (p + 1) st s → motive .spaceAfterTarget p st (0x20 :: s))
    (hspace : ∀ {p st s}, motive .spaceAfterTarget (p + 1) (st.setEnd p) s → motive .target p st (0x20 :: s))
    (hnext : ∀ {p st st' c s}, c ≠ 0x20 → targetChar p st c = .next st' → motive .target (p + 1) st' s → motive .target p st (c :: s))
    (hback : ∀ {p st c s}, c ≠ 0x20 → motive .target p st (c :: s) → motive .spaceAfterTarget p st (c :: s))
    : ∀ (s : Bytes) (label : TargetLabel) (p : ℕ) (st : TargetScan),
      scanTarget label p st s = .line l rest → motive label p st s := by
  intro s
  induction s with
  | nil => intro label p st h; cases label <;> cases h
  | cons c s ih => ?_
  intro label p st h
  have htarget : scanTarget .target p st (c :: s) = .line l rest →
      motive .target p st (c :: s) := by
    intro h
    rcases targetChar_cases c with ⟨rfl, hc⟩ | ⟨-, hc⟩ | ⟨hsp, hc⟩
    · simp only [scanTarget, hc] at h
      exact hspace (ih _ _ _ h)
    · simp [scanTarget, hc] at h
    obtain ⟨st', hst', -⟩ := hc p st
    simp only [scanTarget, hst'] at h
    exact hnext hsp hst' (ih _ _ _ h)
  cases label with
  | target => exact htarget h
  | spaceAfterTarget => ?_
  by_cases hshort : s.length < 8
  · rcases scanTarget_short (c :: s) .spaceAfterTarget p st (by simpa using hshort) (by simp)
      with ⟨f, hag⟩ | ⟨-, hnow⟩
    · rw [hag] at h; cases h
    · rw [hnow] at h; cases h
  by_cases h8 : (c :: s)[8]? = some 0x0D ∨ (c :: s)[8]? = some 0x0A
  · rw [scanTarget_space_version hshort h8] at h
    exact hversion h8 h
  rw [scanTarget_space_long hshort h8] at h
  by_cases hsp : c = 0x20
  · rw [if_pos hsp] at h
    exact hsp ▸ hsurplus (ih _ _ _ h)
  rw [if_neg hsp] at h
  exact hback hsp (htarget h)

/-- **What a complete line tells.**  The target ends at the space the scan
stands behind or at a later byte; and apart from that end, the state is that
of a scan of the bytes of the target alone. -/
theorem scanTarget_line (s : Bytes) (label : TargetLabel) (p : ℕ) (st : TargetScan)
    (hend : label = .spaceAfterTarget → st.targetEnd < p)
    (h : scanTarget label p st s = .line l rest) : ((label = .spaceAfterTarget ∧ l.scan = st) ∨
      p ≤ l.scan.targetEnd ∧ l.scan.targetEnd ≤ p + s.length) ∧
    (p ≤ l.scan.targetEnd →
      l.scan.setEnd 0 = (scanBytes p st (s.take (l.scan.targetEnd - p))).setEnd 0) := by
  have htake : ∀ {p e : ℕ} (c : UInt8) (s : Bytes), p + 1 ≤ e →
      (c :: s).take (e - p) = c :: s.take (e - (p + 1)) := by
    intro p e c s he
    rw [show e - p = e - (p + 1) + 1 by omega, take_succ_cons]
  revert hend
  refine scanTarget_rule ?_ ?_ ?_ ?_ ?_ s label p st h
  · intro p st s _ hver hend
    have hscan := (versionEnd_line hver).1
    refine ⟨.inl ⟨rfl, hscan⟩, fun hp => ?_⟩
    rw [hscan] at hp
    exact absurd (hend rfl) (by omega)
  · -- a surplus space
    intro p st s ih hend
    have hend' := hend rfl
    obtain ⟨hscan, hstate⟩ := ih fun _ => by omega
    rw [length_cons]
    refine ⟨hscan.imp_right fun hle => by omega, fun hp => ?_⟩
    have hp' : p + 1 ≤ l.scan.targetEnd := by
      rcases hscan with hscan | hle
      · rw [hscan.2] at hp
        omega
      · exact hle.1
    rw [hstate hp', htake _ _ hp']
    rfl
  · intro p st s ih _
    obtain ⟨hscan | hle, hstate⟩ := ih fun _ => Nat.lt_succ_self p
    · -- this space is the end of the target
      rw [hscan.2, show (st.setEnd p).targetEnd - p = 0 from Nat.sub_self p]
      exact ⟨.inr ⟨le_refl p, Nat.le_add_right p _⟩, fun _ => rfl⟩
    rw [length_cons]
    refine ⟨.inr (by omega), fun _ => ?_⟩
    rw [hstate hle.1, htake _ _ hle.1, scanBytes_setEnd]
    rfl
  · intro p st st' c s _ hst' ih _
    obtain ⟨⟨hl, -⟩ | hle, hstate⟩ := ih (by simp)
    · cases hl
    rw [length_cons]
    refine ⟨.inr (by omega), fun _ => ?_⟩
    rw [hstate hle.1, htake _ _ hle.1, scanBytes, hst']
  · intro p st c s _ ih _
    obtain ⟨⟨hl, -⟩ | hle, hstate⟩ := ih (by simp)
    · cases hl
    · exact ⟨.inr hle, hstate⟩

theorem versionEnd_again (h : versionEnd st s = .again f) : f = st.flags := by
  simp only [versionEnd] at h
  split at h
  · split at h
    · cases h
    split at h
    · split at h
      · cases h; rfl
      · split at h <;> cases h
    · cases h
  · split at h <;> cases h

/-! ### The flags of an unfinished scan -/

theorem scanBytes_flags_le (s : Bytes) (p : ℕ) (st : TargetScan) :
    st.flags.Le (scanBytes p st s).flags := by
  induction s generalizing p st with
  | nil => exact .refl _
  | cons c s ih => ?_
  rcases targetChar_cases c with ⟨-, hc⟩ | ⟨-, hc⟩ | ⟨-, hc⟩
  · simpa only [scanBytes, hc] using ih (p + 1) st
  · simpa only [scanBytes, hc] using ih (p + 1) st
  obtain ⟨st', hst', -, hle⟩ := hc p st
  simp only [scanBytes, hst']
  exact hle.trans (ih (p + 1) st')

theorem scanTarget_flags_le {label : TargetLabel}
    (hend : label = .spaceAfterTarget → st.targetEnd < p)
    (h : scanTarget label p st s = .line l rest) : st.flags.Le l.scan.flags := by
  obtain ⟨⟨-, hscan⟩ | hle, hstate⟩ := scanTarget_line s label p st hend h
  · rw [hscan]
    exact .refl _
  have hflags := congrArg TargetScan.flags (hstate hle.1)
  simp only [TargetScan.setEnd_flags] at hflags
  rw [hflags]
  exact scanBytes_flags_le _ p st

/-- Behind the end of the target an unfinished scan waits with the flags it
has: there are only spaces and the start of the version. -/
theorem scanTarget_space_flags (m x : Bytes) (p : ℕ) (st : TargetScan) {l : RequestLine}
    {rest : Bytes} {f : TargetFlags} (hend : st.targetEnd < p)
    (h : scanTarget .spaceAfterTarget p st x = .again f)
    (hfull : scanTarget .spaceAfterTarget p st (x ++ m) = .line l rest) (hscan : l.scan = st) :
    f = st.flags := by
  induction x generalizing p st l rest f with
  | nil =>
    simp only [scanTarget, LineScan.again.injEq] at h
    exact h.symm
  | cons c x ih => ?_
  rw [cons_append] at hfull
  by_cases hfs : (x ++ m).length < 8
  · -- no line ends on the short path
    rcases scanTarget_short (c :: (x ++ m)) .spaceAfterTarget p st
      (by simpa using hfs) (by simp) with ⟨f', hag⟩ | ⟨-, hnow⟩
    · rw [hag] at hfull; cases hfull
    · rw [hnow] at hfull; cases hfull
  by_cases h8 : (c :: (x ++ m))[8]? = some 0x0D ∨ (c :: (x ++ m))[8]? = some 0x0A
  · -- the version follows
    rw [scanTarget_space_version hfs h8] at hfull
    have hv := isHttpVersion_of_isHttp1Version (versionEnd_line hfull).2
    by_cases hshort : x.length < 8
    · have hpre : isVersionPrefix (c :: x) = true := by
        have := isVersionPrefix_take hv (c :: x).length
        rwa [take_take, min_eq_left (by simp; omega), ← cons_append, take_left' rfl] at this
      have hsp : c ≠ 0x20 := by
        rintro rfl
        have := isVersionPrefix_take hv 1
        rw [take_take] at this
        exact absurd this (by decide : ¬ isVersionPrefix [0x20] = true)
      rw [scanTarget_space_short hshort, if_neg hsp, if_pos hpre] at h
      cases h
      rfl
    have h8' : (c :: (x ++ m))[8]? = (c :: x)[8]? := by
      rw [← cons_append]
      exact getElem?_append_left (by simp; omega)
    rw [scanTarget_space_version hshort (h8' ▸ h8)] at h
    exact versionEnd_again h
  rw [scanTarget_space_long hfs h8] at hfull
  by_cases hsp : c = 0x20
  · -- a surplus space, on whichever path
    rw [if_pos hsp] at hfull
    have hx : scanTarget .spaceAfterTarget (p + 1) st x = .again f := by
      by_cases hshort : x.length < 8
      · rwa [scanTarget_space_short hshort, if_pos hsp] at h
      have h8' : (c :: (x ++ m))[8]? = (c :: x)[8]? := by
        rw [← cons_append]
        exact getElem?_append_left (by simp; omega)
      rwa [scanTarget_space_long hshort (h8' ▸ h8), if_pos hsp] at h
    exact ih (p + 1) st (by omega) hx hfull hscan
  -- the target would go on
  rw [if_neg hsp] at hfull
  obtain ⟨⟨hl, -⟩ | hle, -⟩ := scanTarget_line _ .target p st (by simp) hfull
  · cases hl
  rw [hscan] at hle
  omega

theorem scanTarget_target_flags (m x : Bytes) (p : ℕ) (st : TargetScan)
    {l : RequestLine} {rest : Bytes} {f : TargetFlags} (h : scanTarget .target p st x = .again f)
    (hfull : scanTarget .target p st (x ++ m) = .line l rest)
    (hsp : 0x20 ∉ (x ++ m).take (l.scan.targetEnd - p)) : f.Le l.scan.flags := by
  induction x generalizing p st l rest f with
  | nil =>
    simp only [scanTarget, LineScan.again.injEq] at h
    rw [← h]
    exact scanTarget_flags_le (by simp) hfull
  | cons c x ih => ?_
  rw [cons_append] at hfull hsp
  rcases targetChar_cases c with ⟨hc20, hc⟩ | ⟨-, hc⟩ | ⟨-, hc⟩
  · -- the first space of the line ends the target
    simp only [scanTarget, hc] at h hfull
    have hlt : (st.setEnd p).targetEnd < p + 1 := Nat.lt_succ_self p
    obtain ⟨⟨-, hscan⟩ | hle, -⟩ := scanTarget_line _ .spaceAfterTarget (p + 1) (st.setEnd p)
      (fun _ => hlt) hfull
    · rw [scanTarget_space_flags m x (p + 1) (st.setEnd p) hlt h hfull hscan, hscan]
      exact .refl _
    refine absurd ?_ hsp
    rw [show l.scan.targetEnd - p = l.scan.targetEnd - (p + 1) + 1 by omega, take_succ_cons, hc20]
    exact mem_cons_self
  · simp [scanTarget, hc] at h
  obtain ⟨st', hst', -⟩ := hc p st
  simp only [scanTarget, hst'] at h hfull
  obtain ⟨⟨hl, -⟩ | hle, -⟩ := scanTarget_line _ .target (p + 1) st' (by simp) hfull
  · cases hl
  refine ih (p + 1) st' h hfull fun hmem => hsp ?_
  rw [show l.scan.targetEnd - p = l.scan.targetEnd - (p + 1) + 1 by omega, take_succ_cons]
  exact mem_cons_of_mem _ hmem

/-- **The flags an unfinished scan leaves** are flags of the complete line,
provided its target holds no space. -/
theorem scanLine_flags {method t : Bytes} (h : (scanLine x).2.2 = .again f)
    (hfull : scanLine (x ++ m) = (method, t, .line l rest)) (hsp : 0x20 ∉ t.take l.scan.targetEnd) :
    f.Le l.scan.flags := by
  rcases scanLine_cases x with hag | hinv | ⟨method', t', hall⟩
  · rw [hag] at h
    cases h
    exact ⟨by simp, by simp⟩
  · have := hinv m
    rw [hfull] at this
    cases this
  have h0 := hall []
  rw [append_nil, append_nil] at h0
  rw [h0] at h
  rw [hall m, Prod.mk.injEq, Prod.mk.injEq] at hfull
  obtain ⟨-, ht, hline⟩ := hfull
  obtain ⟨⟨hl, -⟩ | hle, -⟩ := scanTarget_line _ .target 1 {} (by simp) hline
  · cases hl
  refine scanTarget_target_flags m t' 1 {} h hline fun hmem => hsp ?_
  rw [← ht, show l.scan.targetEnd = l.scan.targetEnd - 1 + 1 by omega, take_succ_cons]
  exact mem_cons_of_mem _ hmem

end FreeUnit
