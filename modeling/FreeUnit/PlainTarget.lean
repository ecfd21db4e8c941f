/-
Targets without flags.

The scan of the request line raises a flag for everything that normalisation
would change, so a target without flags is its own normal form:
`httpParseComplexTarget` returns the bytes before the question mark as the
path and those behind it as the arguments.  Hence it does not matter whether
the parser normalises such a target or only splits it, which it decides by
flags that may stem from an earlier, shorter scan.

* `setLine_agrees` — the record after a request line, from two records that
  differ in their flags only.
-/
import FreeUnit.LineResume
import FreeUnit.FieldResume

namespace FreeUnit

/-! ### Normalisation of a plain target -/

/-- Once `rest` is set, only a hash can raise a flag. -/
theorem scanBytes_rest (s : Bytes) (p : ℕ) (st : TargetScan) (hrest : st.rest = true) :
    (scanBytes p st s).args = st.args ∧
      ((scanBytes p st s).flags.complexTarget = false → 0x23 ∉ s) := by
  induction s generalizing p st with
  | nil => exact ⟨rfl, fun _ => List.not_mem_nil⟩
  | cons c s ih => ?_
  by_cases hhash : c = 0x23
  · -- the flag is set and stays
    have hst : targetChar p st c = .next { st with flags.complexTarget := true, rest := true } := by
      simp [targetChar, httpTargetChars, hhash]
    simp only [scanBytes, hst]
    obtain ⟨hargs, -⟩ := ih (p + 1) { st with flags.complexTarget := true, rest := true } rfl
    refine ⟨hargs, fun hno => ?_⟩
    have hle := (scanBytes_flags_le s (p + 1)
      { st with flags.complexTarget := true, rest := true }).1 rfl
    rw [hno] at hle
    cases hle
  have hsame : (scanBytes p st (c :: s)) = scanBytes (p + 1) st s := by
    rw [scanBytes]
    simp only [targetChar]
    cases ht : httpTargetChars c with
    | space | bad | plain => rfl
    | slash | dot | argsMark | quoteMark => simp [hrest]
    | hash => exact absurd ((httpTargetChars_iff c).2.1.mp ht) hhash
  rw [hsame]
  obtain ⟨hargs, hno⟩ := ih (p + 1) st hrest
  refine ⟨hargs, fun h => ?_⟩
  simp [Ne.symm hhash, hno h]

/-- The split of a target without flags when its bytes before position `p` are
the output `u` (reversed) and `s` follows. -/
def plainSplit (u s : Bytes) (p : ℕ) : Option ℕ → ComplexTarget
  | none => ⟨u.reverse ++ s, none, false⟩
  | some a => ⟨u.reverse ++ s.take (a - 1 - p), some (s.drop (a - p)), false⟩

theorem plainSplit_cons (u s : Bytes) (p : ℕ) (c : UInt8) {args : Option ℕ}
    (h : ∀ a, args = some a → p + 1 + 1 ≤ a) :
    plainSplit (c :: u) s (p + 1) args = plainSplit u (c :: s) p args := by
  cases args with
  | none => simp [plainSplit]
  | some a => ?_
  have ha := h a rfl
  rw [plainSplit, plainSplit, show a - 1 - p = a - 1 - (p + 1) + 1 by omega,
    show a - p = a - (p + 1) + 1 by omega]
  simp

/-- The state of the normalisation in a target without flags: at a slash, or
in a segment. -/
def plainState (st : TargetScan) (p : ℕ) : PathState :=
  if st.afterSlash = p then .slash else .normal

/-- A byte that raises no flag and does not start the arguments is copied. -/
theorem complexPathChar_copy {state : PathState} (hstate : state = .slash ∨ state = .normal)
    {c : UInt8} (hquote : c ≠ 0x25) (hargs : c ≠ 0x3F) (hhash : c ≠ 0x23)
    (hsep : state = .slash → c ≠ 0x2F ∧ c ≠ 0x2E) (u : Bytes) : complexPathChar state u c =
      .next (.path (if c = 0x2F then .slash else .normal)) (c :: u) := by
  rcases hstate with rfl | rfl
  · obtain ⟨hslash, hdot⟩ := hsep rfl
    simp [complexPathChar, hquote, hargs, hhash, hslash, hdot]
  by_cases hslash : c = 0x2F
  · simp [complexPathChar, httpIsNormal, hslash]
  · simp [complexPathChar, hquote, hargs, hhash, hslash]

/-- **Normalisation of a target without flags** copies the path and stops at
the arguments the scan found. -/
theorem complexLoop_plain (es : Bool) (s : Bytes) (p : ℕ) (st : TargetScan) (u : Bytes)
    (hrest : st.rest = false) (hargs : st.args = none) (hle : st.afterSlash ≤ p)
    (hflags : (scanBytes p st s).flags = {}) : (∀ a, (scanBytes p st s).args = some a → p + 1 ≤ a) ∧
        complexLoop es (.path (plainState st p)) u false s =
          some (plainSplit u s p (scanBytes p st s).args) := by
  induction s generalizing p st u with
  | nil =>
    have hend : complexEnd (.path (plainState st p)) u false = some ⟨u.reverse, none, false⟩ := by
      unfold plainState
      split <;> rfl
    simp only [scanBytes, hargs, complexLoop, hend]
    simp [plainSplit]
  | cons c s ih => ?_
  have hstate : plainState st p = .slash ∨ plainState st p = .normal := by
    unfold plainState
    split <;> simp
  have hslash : plainState st p = .slash → st.afterSlash = p := by
    unfold plainState
    split <;> simp_all
  have hnormal : plainState st (p + 1) = .normal := by
    rw [plainState, if_neg (by omega)]
  -- a copied byte: the induction hypothesis, shifted by one
  have hcopy : ∀ st', scanBytes p st (c :: s) = scanBytes (p + 1) st' s →
      complexPathChar (plainState st p) u c = .next (.path (plainState st' (p + 1))) (c :: u) →
      st'.rest = false → st'.args = none → st'.afterSlash ≤ p + 1 →
      (∀ a, (scanBytes p st (c :: s)).args = some a → p + 1 ≤ a) ∧
      complexLoop es (.path (plainState st p)) u false (c :: s) =
        some (plainSplit u (c :: s) p (scanBytes p st (c :: s)).args) := by
    intro st' hscan hchar hrest' hargs' hle'
    rw [hscan] at hflags ⊢
    obtain ⟨hge, hloop⟩ := ih (p + 1) st' (c :: u) hrest' hargs' hle' hflags
    refine ⟨fun a ha => by have := hge a ha; omega, ?_⟩
    simp only [complexLoop, complexChar, hchar]
    rw [← plainSplit_cons u s p c hge]
    exact hloop
  -- a flag, once raised, stays
  have hraised : ∀ st', scanBytes p st (c :: s) = scanBytes (p + 1) st' s → st'.flags = {} := by
    intro st' hscan
    have hmono := scanBytes_flags_le s (p + 1) st'
    rw [← hscan, hflags] at hmono
    obtain ⟨h1, h2⟩ := hmono
    cases hf : st'.flags with
    | mk fc fq =>
      rw [hf] at h1 h2
      cases fc <;> cases fq <;> simp_all
  obtain ⟨-, hhash, hsl, hdot, hq, hquote⟩ := httpTargetChars_iff c
  cases ht : httpTargetChars c with
  | space | bad | plain =>
    rw [ht] at hhash hsl hdot hq hquote
    simp only [reduceCtorEq, false_iff] at hhash hsl hdot hq hquote
    refine hcopy st (by simp [scanBytes, targetChar, ht]) ?_ hrest hargs (by omega)
    rw [complexPathChar_copy hstate hquote hq hhash (fun _ => ⟨hsl, hdot⟩), if_neg hsl, hnormal]
  | slash =>
    have hc := hsl.mp ht
    by_cases hafter : st.afterSlash = p
    · have := hraised { st with flags.complexTarget := true, rest := true }
        (by simp [scanBytes, targetChar, ht, hrest, hafter])
      simp at this
    refine hcopy { st with afterSlash := p + 1 }
      (by simp [scanBytes, targetChar, ht, hrest, hafter]) ?_ hrest hargs (by simp)
    rw [complexPathChar_copy hstate (by simp [hc]) (by simp [hc]) (by simp [hc])
      (fun h => absurd (hslash h) hafter), if_pos hc]
    simp [plainState]
  | dot =>
    have hc := hdot.mp ht
    by_cases hafter : st.afterSlash = p
    · have := hraised { st with flags.complexTarget := true, rest := true }
        (by simp [scanBytes, targetChar, ht, hrest, hafter])
      simp at this
    refine hcopy st (by simp [scanBytes, targetChar, ht, hrest, hafter]) ?_ hrest hargs (by omega)
    rw [complexPathChar_copy hstate (by simp [hc]) (by simp [hc]) (by simp [hc])
      (fun h => absurd (hslash h) hafter), if_neg (by simp [hc]), hnormal]
  | hash =>
    have := hraised { st with flags.complexTarget := true, rest := true }
      (by simp [scanBytes, targetChar, ht])
    simp at this
  | quoteMark =>
    have := hraised { st with flags.quotedTarget := true, rest := true }
      (by simp [scanBytes, targetChar, ht, hrest])
    simp at this
  | argsMark => ?_
  -- the arguments hold no hash, so they reach to the end
  have hscan : scanBytes p st (c :: s) =
      scanBytes (p + 1) { st with args := some (p + 1), rest := true } s := by
    simp [scanBytes, targetChar, ht, hrest]
  obtain ⟨ha, hno⟩ := scanBytes_rest s (p + 1)
    { st with args := some (p + 1), rest := true } rfl
  rw [← hscan] at ha hno
  have hnohash : 0x23 ∉ s := hno (by rw [hflags])
  have htake : s.takeWhile (· != 0x23) = s := List.takeWhile_eq_self_iff.mpr fun x hx => by
      have : x ≠ 0x23 := fun h => hnohash (h ▸ hx)
      simpa using this
  have hchar : complexPathChar (plainState st p) u c = .args u := by
    rw [hq.mp ht]
    rcases hstate with h | h <;> rw [h] <;> rfl
  rw [ha]
  refine ⟨fun a h => by cases h; omega, ?_⟩
  simp only [complexLoop, complexChar, hchar, htake]
  simp [plainSplit]

variable {t : Bytes} {l : RequestLine}

/-- A complete line without flags: its target is its own normal form. -/
theorem httpParseComplexTarget_plain (es : Bool) {rest : Bytes}
    (h : scanTarget .target 1 {} t = .line l rest) (hflags : l.scan.flags = {}) :
    let target := (0x2F :: t).take l.scan.targetEnd
    httpParseComplexTarget es target =
      some (match l.scan.args with
        | none => ⟨target, none, false⟩
        | some a => ⟨target.take (a - 1), some (target.drop a), false⟩) := by
  intro target
  obtain ⟨⟨hl, -⟩ | hle, hstate⟩ := scanTarget_line t .target 1 {} (by simp) h
  · cases hl
  have hst := hstate hle.1
  have hargs : (scanBytes 1 {} (t.take (l.scan.targetEnd - 1))).args = l.scan.args :=
    (congrArg TargetScan.args hst).symm
  have hfl : (scanBytes 1 {} (t.take (l.scan.targetEnd - 1))).flags = {} :=
    (congrArg TargetScan.flags hst).symm.trans hflags
  have htarget : target = 0x2F :: t.take (l.scan.targetEnd - 1) := by
    rw [show target = (0x2F :: t).take (l.scan.targetEnd - 1 + 1) by
      rw [Nat.sub_add_cancel hle.1], List.take_succ_cons]
  obtain ⟨hge, hloop⟩ := complexLoop_plain es _ 1 {} [0x2F] rfl rfl (le_refl 1) hfl
  rw [hargs] at hge hloop
  have hrun : httpParseComplexTarget es target =
      complexLoop es (.path (plainState {} 1)) [0x2F] false (t.take (l.scan.targetEnd - 1)) := by
    rw [htarget]
    rfl
  rw [hrun, hloop, htarget]
  cases ha : l.scan.args with
  | none => rfl
  | some a =>
    obtain ⟨k, rfl⟩ := Nat.exists_eq_add_of_le' (hge a ha)
    simp [plainSplit]

/-! ### The record after a request line -/

/-- The record `b` of an incremental parse against the record `a` of a parse of
everything at once: they differ in their flags only; every quoted target is
flagged in both, and no other in `b` if the target holds no space. -/
structure Agrees (a b : RequestParse) : Prop where
  same : b.withFlags {} = a.withFlags {}
  quoted : a.flags.quotedTarget = true → b.flags.quotedTarget = true
  exact : 0x20 ∉ a.target → b.flags.quotedTarget = true → a.flags.quotedTarget = true

theorem Agrees.eq_withFlags {a b : RequestParse} (h : Agrees a b) : b = a.withFlags b.flags := by
  have hsame := congrArg (fun r => RequestParse.withFlags r b.flags) h.same
  exact hsame

variable {f : TargetFlags}

theorem TargetFlags.or_eq_false {g : TargetFlags}
    (h : ((f.or g).complexTarget || (f.or g).quotedTarget) = false) : f = {} ∧ g = {} := by
  obtain ⟨fc, fq⟩ := f
  obtain ⟨gc, gq⟩ := g
  simp only [TargetFlags.or, Bool.or_eq_false_iff] at h
  obtain ⟨⟨rfl, rfl⟩, rfl, rfl⟩ := h
  exact ⟨rfl, rfl⟩

theorem setLine_of_flags {rp : RequestParse} {method : Bytes}
    (h : ((f.or l.scan.flags).complexTarget || (f.or l.scan.flags).quotedTarget) = true) :
    (rp.withFlags f).setLine method t l =
      (httpParseComplexTarget rp.encodedSlashes (t.take l.scan.targetEnd)).map fun r => { rp with
          method := method, target := t.take l.scan.targetEnd, version := l.version,
          path := r.path, args := r.args.getD rp.args, flags := ⟨(f.or l.scan.flags).complexTarget,
            (f.or l.scan.flags).quotedTarget || r.quoted⟩ } :=
  if_pos h

theorem setLine_of_noFlags {rp : RequestParse} {method : Bytes}
    (h : ((f.or l.scan.flags).complexTarget || (f.or l.scan.flags).quotedTarget) = false) :
    (rp.withFlags f).setLine method t l = some { rp with
        method := method, target := t.take l.scan.targetEnd, version := l.version,
        path := l.scan.args.elim (t.take l.scan.targetEnd) fun a =>
          (t.take l.scan.targetEnd).take (a - 1),
        args := l.scan.args.elim rp.args fun a => (t.take l.scan.targetEnd).drop a,
        flags := f.or l.scan.flags } := by
  refine (if_neg (by rw [RequestParse.withFlags]; simp [h])).trans ?_
  cases l.scan.args <;> rfl

/-- **The record after a complete line** does not depend on the flags before
it: normalising a target without flags is splitting it. -/
theorem setLine_agrees (rp : RequestParse) (f : TargetFlags) (method : Bytes) {rest : Bytes}
    (h : scanTarget .target 1 {} t = .line l rest)
    (hf : 0x20 ∉ (0x2F :: t).take l.scan.targetEnd → f.quotedTarget = true → l.scan.flags.quotedTarget = true) :
    ((rp.withFlags {}).setLine method (0x2F :: t) l = none ∧
      (rp.withFlags f).setLine method (0x2F :: t) l = none) ∨
    ∃ a b, (rp.withFlags {}).setLine method (0x2F :: t) l = some a ∧
      (rp.withFlags f).setLine method (0x2F :: t) l = some b ∧ Agrees a b := by
  have hor : TargetFlags.or {} l.scan.flags = l.scan.flags := by simp [TargetFlags.or]
  by_cases hl : (l.scan.flags.complexTarget || l.scan.flags.quotedTarget) = true
  · -- both normalise the target
    have hl' : ((f.or l.scan.flags).complexTarget || (f.or l.scan.flags).quotedTarget) = true := by
      simp only [TargetFlags.or, Bool.or_eq_true] at hl ⊢
      tauto
    rw [setLine_of_flags (by rwa [hor]), setLine_of_flags hl', hor]
    cases httpParseComplexTarget rp.encodedSlashes ((0x2F :: t).take l.scan.targetEnd) with
    | none => exact Or.inl ⟨rfl, rfl⟩
    | some r => ?_
    refine Or.inr ⟨_, _, rfl, rfl, rfl, ?_, fun hsp => ?_⟩
    · simp only [TargetFlags.or, Bool.or_eq_true]
      tauto
    · have := hf hsp
      simp only [TargetFlags.or, Bool.or_eq_true]
      tauto
  -- the target has no flags
  rw [Bool.not_eq_true, ← hor] at hl
  have hfl : l.scan.flags = {} := (TargetFlags.or_eq_false hl).2
  have hf' : 0x20 ∉ (0x2F :: t).take l.scan.targetEnd → f.quotedTarget = false := by
    intro hsp
    by_contra hq
    have := hf hsp (by simpa using hq)
    simp [hfl] at this
  refine Or.inr ?_
  rw [setLine_of_noFlags hl, hor]
  by_cases hl' : ((f.or l.scan.flags).complexTarget || (f.or l.scan.flags).quotedTarget) = true
  · rw [setLine_of_flags hl', httpParseComplexTarget_plain rp.encodedSlashes h hfl]
    refine ⟨_, _, rfl, rfl, ?_, by simp [hfl], fun hsp => ?_⟩
    · cases l.scan.args <;> rfl
    · cases l.scan.args <;> simp [TargetFlags.or, hfl, hf' hsp]
  rw [Bool.not_eq_true] at hl'
  obtain rfl := (TargetFlags.or_eq_false hl').1
  rw [setLine_of_noFlags hl', hor]
  exact ⟨_, _, rfl, rfl, rfl, id, fun _ => id⟩

end FreeUnit
