/-
What a compiled route pattern accepts.

* `Unescaped` — the meaning of percent escapes, and of the plus sign where the
  encoding has it;
* `patternCreate_accepts_iff` — **a validated pattern accepts exactly its
  glob**, negated by a leading exclamation mark and up to letter case where its
  kind says so.
-/
import FreeUnit.RoutePattern

namespace FreeUnit

open GlobMatch List

/-! ### Escapes -/

inductive Unescaped (plus : Bool) : Bytes → Bytes → Prop
  | nil : Unescaped plus [] []
  | escape {hi lo d0 d1 : UInt8} {s t : Bytes} (h0 : hexDigit hi = some d0)
      (h1 : hexDigit lo = some d1) (h : Unescaped plus s t) :
      Unescaped plus (0x25 :: hi :: lo :: s) (((d0 <<< 4) + d1) :: t)
  | space {s t : Bytes} (hp : plus = true) (h : Unescaped plus s t) :
      Unescaped plus (0x2B :: s) (0x20 :: t)
  | plain {c : UInt8} {s t : Bytes} (hc : c ≠ 0x25) (hp : plus = true → c ≠ 0x2B)
      (h : Unescaped plus s t) : Unescaped plus (c :: s) (c :: t)

def Decoded : UriEncoding → Bytes → Bytes → Prop
  | .none, w, d => d = w
  | .uri, w, d => Unescaped false w d
  | .plus, w, d => Unescaped true w d

variable {s t w : Bytes}

theorem unescaped_of_decodeUriPlus {plus : Bool} (h : decodeUriPlus plus s = some t) :
    Unescaped plus s t := by
  induction s using decodeUriPlus.induct generalizing t with
  | case1 => cases h; exact .nil
  | case2 hi lo s d0 d1 h1 h0 ih =>
    simp only [decodeUriPlus, h0, h1, Option.map_eq_some_iff] at h
    obtain ⟨t, ht, rfl⟩ := h
    exact .escape h0 h1 (ih ht)
  | case3 hi lo s hno =>
    rw [decodeUriPlus] at h
    split at h
    · next h0 h1 => exact absurd h1 (hno _ _ h0)
    · cases h
  | case4 s hno => simp [decodeUriPlus] at h
  | case5 ch s hno hch ih => ?_
  rw [decodeUriPlus, if_neg hch, Option.map_eq_some_iff] at h
  · obtain ⟨t, ht, rfl⟩ := h
    by_cases hp : plus = true ∧ ch = 0x2B
    · obtain ⟨hplus, rfl⟩ := hp
      rw [if_pos ⟨hplus, rfl⟩]
      exact .space hplus (ih ht)
    rw [if_neg hp]
    exact .plain hch (fun h h' => hp ⟨h, h'⟩) (ih ht)
  · exact hno

variable {enc : UriEncoding} {d : Bytes}

theorem decoded_of_decodeStr (h : decodeStr enc w = some d) : Decoded enc w d := by
  cases enc with
  | none => exact (Option.some.inj h).symm
  | uri | plus => exact unescaped_of_decodeUriPlus h

theorem exists_decodeUriPlus (h : Unescaped false s t) (plus : Bool) :
    ∃ t', decodeUriPlus plus s = some t' := by
  induction h with
  | nil => exact ⟨[], rfl⟩
  | escape h0 h1 _ ih =>
    obtain ⟨t', ht⟩ := ih
    exact ⟨_, by simp only [decodeUriPlus, h0, h1, ht]; rfl⟩
  | space hp => cases hp
  | @plain c _ _ hc _ _ ih => ?_
  obtain ⟨t', ht⟩ := ih
  refine ⟨(if plus = true ∧ c = 0x2B then 0x20 else c) :: t', ?_⟩
  rw [decodeUriPlus, if_neg hc, ht]
  · rfl
  · exact fun _ _ _ h => absurd h hc

theorem Unescaped.of_append_star {a b : Bytes} (h : Unescaped false (a ++ 0x2A :: b) t) :
    (∃ ta, Unescaped false a ta) ∧ ∃ tb, Unescaped false b tb := by
  have hstar : hexDigit 0x2A = none := by decide
  generalize hs : a ++ 0x2A :: b = s at h
  induction h generalizing a with
  | nil => simp at hs
  | @escape hi lo d0 d1 s t h0 h1 h ih =>
    -- The escape lies before the star: neither of its digits is one.
    rcases a with _ | ⟨x, _ | ⟨y, _ | ⟨z, a⟩⟩⟩
    · simp at hs
    · obtain ⟨rfl, rfl, -⟩ := by simpa using hs
      simp [hstar] at h0
    · obtain ⟨rfl, rfl, rfl, -⟩ := by simpa using hs
      simp [hstar] at h1
    obtain ⟨rfl, rfl, rfl, hs'⟩ := by simpa using hs
    obtain ⟨⟨ta, hta⟩, hb⟩ := ih hs'
    exact ⟨⟨_, .escape h0 h1 hta⟩, hb⟩
  | space hp => cases hp
  | @plain c s t hc hp h ih => ?_
  cases a with
  | nil =>
    obtain ⟨-, rfl⟩ := by simpa using hs
    exact ⟨⟨[], .nil⟩, t, h⟩
  | cons x a => ?_
  obtain ⟨rfl, hs'⟩ := by simpa using hs
  obtain ⟨⟨ta, hta⟩, hb⟩ := ih hs'
  exact ⟨⟨_, .plain hc (by simp) hta⟩, hb⟩

theorem unescaped_pieces (s : Bytes) :
    (∃ t, Unescaped false s t) → ∀ w ∈ pieces s, ∃ t, Unescaped false w t := by
  induction s using sep_induction 0x2A with
  | last w hw =>
    rw [pieces_of_starless hw]
    intro h v hv
    rwa [mem_singleton.mp hv]
  | sep w s hw ih => ?_
  rintro ⟨t, h⟩ v hv
  obtain ⟨hfirst, hrest⟩ := h.of_append_star
  rw [pieces_append_star, pieces_of_starless hw, mem_append, mem_singleton] at hv
  obtain rfl | hv := hv
  · exact hfirst
  · exact ih hrest v hv

/-- A value that the validation of its kind accepts decodes word by word. -/
theorem decodeStr_pieces (h : enc ≠ .none → ∃ t, Unescaped false s t) (hw : w ∈ pieces s) :
    ∃ d, decodeStr enc w = some d := by
  cases enc with
  | none => exact ⟨w, rfl⟩
  | uri =>
    obtain ⟨t, ht⟩ := unescaped_pieces s (h (by simp)) w hw
    exact exists_decodeUriPlus ht false
  | plus => ?_
  obtain ⟨t, ht⟩ := unescaped_pieces s (h (by simp)) w hw
  exact exists_decodeUriPlus ht true

theorem Decoded.eq_nil_iff (h : Decoded enc w d) : d = [] ↔ w = [] := by
  cases enc with
  | none => rw [show d = w from h]
  | uri | plus => cases h <;> simp

/-! ### Running the slices -/

section Run

variable (caseSensitive exactLength : Bool)

theorem runSlices_substrings (words : List Bytes) (s : Bytes) :
    runSlices caseSensitive exactLength (words.map fun w => ⟨.substring, w⟩) s =
      placeAll (sameByte caseSensitive) words s := by
  induction words generalizing s with
  | nil => rfl
  | cons w words ih => ?_
  cases w with
  | nil => exact ih s
  | cons c w => ?_
  simp only [map_cons, runSlices, placeAll]
  cases memstrn (sameByte caseSensitive) c w s with
  | none => rfl
  | some t => exact ih t

def sliceText (type : SliceType) (w : Bytes) : List Slice := if w = [] then [] else [⟨type, w⟩]

theorem runSlices_ends (last : Bytes) (slices : List Slice) (s : Bytes) :
    runSlices caseSensitive exactLength (sliceText .ends last ++ slices) s =
      (eqWord (sameByte caseSensitive) last (s.drop (s.length - last.length)) &&
        runSlices caseSensitive exactLength slices (s.take (s.length - last.length))) := by
  rw [sliceText]
  split
  · next h => simp [h, eqWord]
  simp only [singleton_append, runSlices]
  split <;> simp_all

theorem runSlices_begins (first : Bytes) (slices : List Slice) (s : Bytes) :
    runSlices caseSensitive exactLength (sliceText .begins first ++ slices) s =
      (eqWord (sameByte caseSensitive) first (s.take first.length) &&
        runSlices caseSensitive exactLength slices (s.drop first.length)) := by
  rw [sliceText]
  split
  · next h => simp [h, eqWord]
  simp only [singleton_append, runSlices]
  split <;> simp_all

def anchoredSlices (first : Bytes) (mids : List Bytes) (last : Bytes) : List Slice :=
  sliceText .begins first ++ (sliceText .ends last ++ mids.map fun w => ⟨.substring, w⟩)

/-- **The loop anchors the ends and places the rest.** The subject is long
enough for both ends, so they do not overlap. -/
theorem runSlices_anchored (first last : Bytes) (mids : List Bytes) (s : Bytes)
    (hlen : first.length + last.length ≤ s.length) :
    runSlices caseSensitive exactLength (anchoredSlices first mids last) s = true ↔
      Glob (fun c d => sameByte caseSensitive c d = true) (first :: (mids ++ [last])) s := by
  rw [anchoredSlices, runSlices_begins, runSlices_ends, runSlices_substrings,
    glob_iff_anchored, Bool.and_eq_true, Bool.and_eq_true, eqWord_iff, eqWord_iff, placeAll_iff]
  constructor
  · rintro ⟨hfirst, hlast, hmids⟩
    refine ⟨_, _, _, ?_, hfirst, hlast, hmids⟩
    rw [take_append_drop, take_append_drop]
  · rintro ⟨a, m, z, rfl, ha, hz, hm⟩
    have hrest : (m ++ z).length - last.length = m.length := by
      rw [length_append, hz.length_eq, Nat.add_sub_cancel]
    rw [ha.length_eq, take_left, drop_left, hrest, take_left, drop_left]
    exact ⟨ha, hz, hm⟩

end Run

/-! ### The test of a compiled pattern -/

section Test

variable {ρ : Type} (regex : Regex ρ) (pattern : Pattern ρ)

/-- What the test of a pattern with slices has to decide. -/
def Decides (words : List Bytes) : Prop :=
  ∀ subject : Option Bytes, ∃ b, pattern.test regex subject = some b ∧
    (b = true ↔
      Glob (fun c d => sameByte pattern.caseSensitive c d = true) words (subject.getD []))

/-- The length test and the null subject in front of the slices. -/
theorem decides_of_run {slices : List Slice} {words : List Bytes}
    (hm : pattern.matcher = .slices slices) (hne : words ≠ [])
    (hl : pattern.minLength = (words.map length).sum)
    (hrun : ∀ s : Bytes, pattern.minLength ≤ s.length →
      (runSlices pattern.caseSensitive (s.length = pattern.minLength) slices s = true ↔
        Glob (fun c d => sameByte pattern.caseSensitive c d = true) words s)) :
    Decides regex pattern words := by
  intro subject
  simp only [Pattern.test, hm]
  split
  · next hlt =>
    refine ⟨false, rfl, by simp, fun h => ?_⟩
    have := h.sum_le
    omega
  next hge =>
  cases subject with
  | some s => exact ⟨_, rfl, hrun s (by simpa using hge)⟩
  | none => ?_
  -- Nothing is left to match in a pattern that a null subject is long enough for.
  refine ⟨true, rfl, fun _ => glob_nil hne ?_, by simp⟩
  intro w hw
  have hzero : (words.map length).sum = 0 := by simpa [hl] using hge
  simpa using sum_eq_zero_iff.mp hzero w.length (mem_map_of_mem hw)

variable {regex pattern} in
theorem Decides.congr {words words' : List Bytes} (h : Decides regex pattern words)
    (hiff : ∀ s, Glob (fun c d => sameByte pattern.caseSensitive c d = true) words s ↔
      Glob (fun c d => sameByte pattern.caseSensitive c d = true) words' s) :
    Decides regex pattern words' := by
  intro subject
  obtain ⟨b, hb, hglob⟩ := h subject
  exact ⟨b, hb, hglob.trans (hiff _)⟩

theorem decides_exact {word : Bytes} (hm : pattern.matcher = .slices [⟨.exact, word⟩])
    (hl : pattern.minLength = word.length) : Decides regex pattern [word] := by
  refine decides_of_run regex pattern hm (by simp) (by simp [hl]) fun s hs => ?_
  simp only [runSlices, Bool.and_eq_true, decide_eq_true_eq, eqWord_iff, hl, Glob]
  constructor
  · rintro ⟨hlen, h⟩
    rwa [← hlen, take_length] at h
  · intro h
    refine ⟨h.length_eq.symm, ?_⟩
    rwa [h.length_eq, take_length]

theorem decides_anchored {first last : Bytes} {mids : List Bytes}
    (hm : pattern.matcher = .slices (anchoredSlices first mids last))
    (hl : pattern.minLength = ((first :: (mids ++ [last])).map length).sum) :
    Decides regex pattern (first :: (mids ++ [last])) := by
  refine decides_of_run regex pattern hm (by simp) hl fun s hs => ?_
  refine runSlices_anchored _ _ first last mids s ?_
  simp only [map_cons, map_append, sum_cons, sum_append, map_nil, sum_nil] at hl
  omega

end Test

/-! ### From the string to the slices -/

def PatternKind.compiled (kind : PatternKind) (w : Bytes) : Bytes :=
  ((decodeStr kind.encoding w).getD []).map kind.patternCase.copy

variable {value : Bytes}

section Compile

variable {kind : PatternKind}

theorem PatternKind.compiled_eq_nil_iff (h : decodeStr kind.encoding w = some d) :
    kind.compiled w = [] ↔ w = [] := by
  simp [compiled, h, (decoded_of_decodeStr h).eq_nil_iff]

theorem mapM_patternSlice {l : List (SliceType × Bytes)}
    (h : ∀ x ∈ l, ∃ d, decodeStr kind.encoding x.2 = some d) :
    l.mapM (fun x => patternSlice kind x.1 x.2) =
      some (l.map fun x => ⟨x.1, kind.compiled x.2⟩) := by
  induction l with
  | nil => rfl
  | cons x l ih => ?_
  obtain ⟨d, hd⟩ := h x (by simp)
  have hx : patternSlice kind x.1 x.2 = some ⟨x.1, kind.compiled x.2⟩ := by
    simp [patternSlice, PatternKind.compiled, hd]
  rw [mapM_cons, hx, ih fun y hy => h y (by simp [hy])]
  rfl

theorem map_sliceOf {type : SliceType}
    (h : ∃ d, decodeStr kind.encoding w = some d) :
    (sliceOf type w).map (fun x => (⟨x.1, kind.compiled x.2⟩ : Slice)) =
      sliceText type (kind.compiled w) := by
  obtain ⟨d, hd⟩ := h
  have := PatternKind.compiled_eq_nil_iff hd
  rw [sliceOf, sliceText]
  by_cases hw : w = []
  · rw [if_pos hw, if_pos (this.mpr hw)]
    rfl
  rw [if_neg hw, if_neg (mt this.mp hw)]
  rfl

theorem sum_sliceText (type : SliceType) (w : Bytes) :
    ((sliceText type w).map (·.text.length)).sum = w.length := by
  rw [sliceText]
  split
  · next h => simp [h]
  · simp

theorem sum_anchoredSlices (first last : Bytes) (mids : List Bytes) :
    ((anchoredSlices first mids last).map (·.text.length)).sum =
      ((first :: (mids ++ [last])).map length).sum := by
  simp only [anchoredSlices, map_append, sum_append, sum_sliceText, map_map,
    map_cons, sum_cons, map_nil, sum_nil]
  show _ + (_ + (mids.map length).sum) = _
  omega

theorem map_patternSlices {first last : Bytes} {mids : List Bytes}
    (h : ∀ w ∈ first :: (mids ++ [last]), ∃ d, decodeStr kind.encoding w = some d) :
    (sliceOf .begins first ++ sliceOf .ends last ++
        (mids.filter (· ≠ [])).map (SliceType.substring, ·)).map
        (fun x => (⟨x.1, kind.compiled x.2⟩ : Slice)) =
      anchoredSlices (kind.compiled first) ((mids.map kind.compiled).filter (· ≠ []))
        (kind.compiled last) := by
  have hfilter : (mids.map kind.compiled).filter (· ≠ []) =
      (mids.filter (· ≠ [])).map kind.compiled := by
    rw [filter_map]
    congr 1
    refine filter_congr fun w hw => ?_
    obtain ⟨d, hd⟩ := h w (by simp [hw])
    simp [PatternKind.compiled_eq_nil_iff hd]
  rw [map_append, map_append, map_sliceOf (h first (by simp)),
    map_sliceOf (h last (by simp)), anchoredSlices, hfilter, append_assoc]
  simp only [map_map, Function.comp_def]

def isRegex (value : Bytes) : Prop := (negation value).2.head? = some 0x7E

instance (value : Bytes) : Decidable (isRegex value) :=
  inferInstanceAs (Decidable ((negation value).2.head? = some 0x7E))

variable {ρ : Type} (regex : Regex ρ)

/-- **Compilation keeps the glob**: the pattern decides the glob of the words
between the stars. -/
theorem patternCreate_decides (hre : ¬ isRegex value) (hds : doubleStar (negation value).2 = false)
    (henc : kind.encoding ≠ .none → ∃ t, Unescaped false (negation value).2 t) :
    ∃ pattern, patternCreate regex kind value = some pattern ∧
      pattern.negative = (negation value).1 ∧ pattern.caseSensitive = kind.caseSensitive ∧
      Decides regex pattern ((pieces (negation value).2).map kind.compiled) := by
  unfold patternCreate
  unfold isRegex at hre
  generalize hneg : negation value = n at hre hds henc ⊢
  obtain ⟨negative, test⟩ := n
  dsimp only at hre hds henc ⊢
  have hdec := fun w => decodeStr_pieces (w := w) henc
  split
  · simp at hre
  · refine ⟨_, rfl, rfl, rfl, ?_⟩
    have hnil : kind.compiled [] = [] := by
      cases henc : kind.encoding <;> simp [PatternKind.compiled, henc, decodeStr, decodeUriPlus]
    rw [pieces, map_singleton, hnil]
    exact decides_exact _ _ rfl rfl
  next _ hne =>
  obtain ⟨hp, hs⟩ | ⟨first, mids, last, hp, hs⟩ := patternSlices_spec test hds (by simpa using hne)
  · rw [hp] at hdec ⊢
    have hmap : (patternSlices test).mapM (fun x => patternSlice kind x.1 x.2) =
        some [⟨.exact, kind.compiled test⟩] := by
      rw [hs]
      exact mapM_patternSlice fun x hx => hdec x.2 (by simp_all)
    refine ⟨_, by rw [hmap]; rfl, rfl, rfl, ?_⟩
    exact decides_exact _ _ rfl (by simp)
  rw [hp] at hdec ⊢
  have hmap : (patternSlices test).mapM (fun x => patternSlice kind x.1 x.2) =
      some (anchoredSlices (kind.compiled first) ((mids.map kind.compiled).filter (· ≠ []))
        (kind.compiled last)) := by
    rw [hs, mapM_patternSlice, map_patternSlices hdec]
    intro x hx
    refine hdec x.2 ?_
    simp only [sliceOf, mem_append, mem_map, mem_filter] at hx
    obtain (hx | hx) | ⟨w, ⟨hw, -⟩, rfl⟩ := hx
    · split at hx <;> simp_all
    · split at hx <;> simp_all
    · simp [hw]
  refine ⟨_, by rw [hmap]; rfl, rfl, rfl, ?_⟩
  refine (decides_anchored regex _ rfl (sum_anchoredSlices _ _ _)).congr fun s => ?_
  rw [glob_filter, map_cons, map_append, map_singleton]

end Compile

/-! ### The meaning of a validated pattern -/

/-- What `nxt_http_route_test_rule` makes of the test of one pattern:
`ret ^= pattern->negative`. -/
def Pattern.accepts {ρ : Type} (regex : Regex ρ) (pattern : Pattern ρ) (subject : Option Bytes) :
    Option Bool :=
  (pattern.test regex subject).map (· ^^ pattern.negative)

namespace PatternKind

/-- A byte of the decoded pattern stands for a byte of the subject. -/
def Same (kind : PatternKind) (c d : UInt8) : Prop :=
  if kind.caseSensitive then kind.patternCase.copy c = d else lowcase c = lowcase d

/-- Letter case is ignored by a comparison of its own or by putting the
pattern into the case that the subjects of the kind have. -/
def ignoresCase (kind : PatternKind) : Bool := !kind.caseSensitive || kind.patternCase ≠ .nocase

/-- Equal bytes, up to letter case where the kind ignores it. -/
def Letter (kind : PatternKind) (c d : UInt8) : Prop :=
  if kind.ignoresCase then lowcase c = lowcase d else c = d

/-- The subject is in the case of its kind: a host is lower-cased when it is
validated, and the request parser takes no lower case letter in a method. -/
def InCase (kind : PatternKind) (s : Bytes) : Prop :=
  kind.caseSensitive = true → ∀ d ∈ s, kind.patternCase.copy d = d

end PatternKind

/-- The glob of the words, negated by a leading exclamation mark. -/
def PatternMeaning (same : UInt8 → UInt8 → Prop) (value : Bytes) (words : List Bytes)
    (s : Bytes) : Prop :=
  if value.head? = some 0x21 then ¬ Glob same words s else Glob same words s

theorem case_idem : ∀ c : UInt8, lowcase (lowcase c) = lowcase c ∧
    lowcase (upcase c) = lowcase c ∧ upcase (lowcase c) = upcase c := by
  decide +kernel

theorem lowcase_copy (pc : PatternCase) (c : UInt8) : lowcase (pc.copy c) = lowcase c := by
  cases pc with
  | nocase => rfl
  | lowcase => exact (case_idem c).1
  | upcase => exact (case_idem c).2.1

theorem copy_lowcase {pc : PatternCase} (hpc : pc ≠ .nocase) (c : UInt8) :
    pc.copy (lowcase c) = pc.copy c := by
  cases pc with
  | nocase => exact absurd rfl hpc
  | lowcase => exact (case_idem c).1
  | upcase => exact (case_idem c).2.2

theorem PatternKind.same_iff (kind : PatternKind) (c d : UInt8) :
    kind.Same c d ↔ sameByte kind.caseSensitive (kind.patternCase.copy c) d = true := by
  cases h : kind.caseSensitive <;> simp [Same, sameByte, h, lowcase_copy]

theorem PatternKind.InCase.same_iff {kind : PatternKind} (h : kind.InCase s)
    (c : UInt8) {d : UInt8} (hd : d ∈ s) : kind.Same c d ↔ kind.Letter c d := by
  cases hcs : kind.caseSensitive with
  | false => simp [Same, Letter, ignoresCase, hcs]
  | true => ?_
  have hin := h hcs d hd
  by_cases hpc : kind.patternCase = .nocase
  · simp [Same, Letter, ignoresCase, hcs, hpc, PatternCase.copy]
  simp only [Same, Letter, ignoresCase, hcs, Bool.not_true, Bool.false_or, ne_eq, hpc,
    not_false_eq_true, decide_true, if_true]
  constructor
  · rintro rfl
    exact (lowcase_copy _ c).symm
  · intro hcd
    rw [← copy_lowcase hpc, hcd, copy_lowcase hpc, hin]

theorem negation_fst (value : Bytes) : (negation value).1 = decide (value.head? = some 0x21) := by
  unfold negation
  split
  · rfl
  next hno =>
  cases value with
  | nil => rfl
  | cons c s => ?_
  have hc : c ≠ 0x21 := fun h => hno s (by rw [h])
  simp [hc]

theorem Unescaped.negation (h : Unescaped false value t) :
    ∃ t', Unescaped false (FreeUnit.negation value).2 t' := by
  unfold FreeUnit.negation
  split
  · cases h with
    | plain _ _ h => exact ⟨_, h⟩
  · exact ⟨t, h⟩

section Validated

variable {ρ : Type} (regex : Regex ρ)

/-- What validation has checked of a pattern that is not a regular
expression. -/
theorem vldtPattern_ok {kind : PatternKind} {ctx : String}
    (hv : vldtPattern regex kind ctx value = .ok ()) (hre : ¬ isRegex value) :
    doubleStar (negation value).2 = false ∧
      (kind.encoding ≠ .none → ∃ t, Unescaped false (negation value).2 t) := by
  have hstar : vldtMatchPattern regex value = .ok () → doubleStar (negation value).2 = false := by
    intro h
    unfold vldtMatchPattern at h
    split at h
    · next heq => exact absurd (by simp [isRegex, heq]) hre
    by_contra hds
    rw [if_pos (by simpa using hds)] at h
    cases h
  have hencoded : vldtMatchEncodedPattern regex ctx value = .ok () →
      doubleStar (negation value).2 = false ∧ ∃ t, Unescaped false (negation value).2 t := by
    intro h
    unfold vldtMatchEncodedPattern at h
    split at h
    · cases h
    next hok =>
    split at h
    · cases h
    · next t ht => exact ⟨hstar hok, (unescaped_of_decodeUriPlus ht).negation⟩
  unfold vldtPattern at hv
  split at hv
  · next henc => exact ⟨hstar hv, fun h => absurd henc h⟩
  · exact ⟨(hencoded hv).1, fun _ => (hencoded hv).2⟩
  · exact ⟨(hencoded hv).1, fun _ => (hencoded hv).2⟩

/-- **A validated pattern accepts exactly its glob.** Every star stands for
any bytes, the words between the stars are decoded after the cut, a leading
exclamation mark negates the whole, and for a subject in the case of its kind
letters are compared up to case where the kind says so. -/
theorem patternCreate_accepts_iff (kind : PatternKind) (ctx : String) (value : Bytes)
    (hv : vldtPattern regex kind ctx value = .ok ()) (hre : ¬ isRegex value) :
    ∃ pattern words, patternCreate regex kind value = some pattern ∧
      List.Forall₂ (Decoded kind.encoding) (pieces (negation value).2) words ∧
      ∀ subject : Option Bytes, ∃ b, pattern.accepts regex subject = some b ∧
        (b = true ↔ PatternMeaning kind.Same value words (subject.getD [])) ∧
        (kind.InCase (subject.getD []) →
          (b = true ↔ PatternMeaning kind.Letter value words (subject.getD []))) := by
  obtain ⟨hds, henc⟩ := vldtPattern_ok regex hv hre
  obtain ⟨pattern, hcreate, hnegative, hcase, hdec⟩ := patternCreate_decides regex hre hds henc
  refine ⟨pattern, (pieces (negation value).2).map fun w => (decodeStr kind.encoding w).getD [],
    hcreate, ?_, fun subject => ?_⟩
  · rw [forall₂_map_right_iff, forall₂_same]
    intro w hw
    obtain ⟨d, hd⟩ := decodeStr_pieces henc hw
    rw [hd]
    exact decoded_of_decodeStr hd
  obtain ⟨b, hb, hglob⟩ := hdec subject
  refine ⟨b ^^ pattern.negative, by rw [Pattern.accepts, hb]; rfl, ?_⟩
  set words := (pieces (negation value).2).map fun w => (decodeStr kind.encoding w).getD []
  have hmap : (pieces (negation value).2).map kind.compiled =
      words.map (map kind.patternCase.copy) := by
    rw [map_map]
    rfl
  have hsame : b = true ↔ Glob kind.Same words (subject.getD []) := by
    rw [hglob, hmap, hcase]
    exact (Glob.congr fun c d _ => kind.same_iff c d).symm
  have hmeaning : ∀ same, (b = true ↔ Glob same words (subject.getD [])) →
      ((b ^^ pattern.negative) = true ↔ PatternMeaning same value words (subject.getD [])) := by
    intro same h
    rw [PatternMeaning, hnegative, negation_fst]
    split
    · next hneg => cases b <;> simp_all
    · next hneg => cases b <;> simp_all
  refine ⟨hmeaning _ hsame, fun hin => hmeaning _ (hsame.trans ?_)⟩
  have hletter : Glob kind.Same words (subject.getD []) ↔
      Glob kind.Letter (words.map (map id)) (subject.getD []) :=
    Glob.congr fun c d hd => hin.same_iff c hd
  simpa using hletter

end Validated

def noRegex : Regex Empty := ⟨fun _ => .error ⟨"", 0⟩, fun re => re.elim⟩

/-- `!/a%2A*.php` of a path. -/
theorem patternCreate_accepts_negated :
    vldtPattern noRegex .uri "uri" (str "!/a%2A*.php") = .ok () ∧
      ¬ isRegex (str "!/a%2A*.php") ∧
      ∃ pattern words, patternCreate noRegex .uri (str "!/a%2A*.php") = some pattern ∧
        List.Forall₂ (Decoded .uri) (pieces (negation (str "!/a%2A*.php")).2) words ∧
        ∀ subject : Option Bytes, ∃ b, pattern.accepts noRegex subject = some b ∧
          (b = true ↔
            PatternMeaning PatternKind.uri.Same (str "!/a%2A*.php") words (subject.getD [])) ∧
          (PatternKind.uri.InCase (subject.getD []) →
            (b = true ↔
              PatternMeaning PatternKind.uri.Letter (str "!/a%2A*.php") words
                (subject.getD []))) := by
  have hv : vldtPattern noRegex .uri "uri" (str "!/a%2A*.php") = .ok () := by rfl
  have hre : ¬ isRegex (str "!/a%2A*.php") := by decide
  exact ⟨hv, hre, patternCreate_accepts_iff noRegex .uri "uri" _ hv hre⟩

end FreeUnit
