/-
UTF-8: `nxt_utf8_decode` and `nxt_h1p_ws_utf8_begin`.

* `utf8Decode_two`, `utf8Decode_three`, `utf8Decode_four` — what the decoder takes,
  by the length that the leading byte announces;
* `utf8Begin_classifies` — the source tells characters, their beginnings and
  everything else apart, by completing a beginning with the least bytes.
-/
import FreeUnit.Bytes
import FreeUnit.PrefixCode

namespace FreeUnit

open PrefixCode List

/-! ### The source -/

/-- The loop of `nxt_utf8_decode2` over `n` continuation bytes. -/
def utf8Continue : ℕ → ℕ → Bytes → Option (ℕ × Bytes)
  | u, 0, p => some (u, p)
  | _, _ + 1, [] => none
  | u, n + 1, c :: p =>
    if c - 0x80 > 0x3F then none else utf8Continue ((u <<< 6) ||| (c - 0x80).toNat) n p

/-- `u`, `overlong` and `n` of a leading byte. -/
def utf8Lead (c : UInt8) : Option (ℕ × ℕ × ℕ) :=
  if c ≥ 0xE0 then
    if c ≥ 0xF0 then
      if c > 0xF4 then none else some ((c &&& 0x07).toNat, 0x00FFFF, 3)
    else some ((c &&& 0x0F).toNat, 0x07FF, 2)
  else if c ≥ 0xC2 then some ((c &&& 0x1F).toNat, 0x007F, 1)
  else none

/-- `nxt_utf8_decode2`: the character and what is left, or `0xFFFFFFFF`. -/
def utf8Decode2 : Bytes → Option (ℕ × Bytes)
  | [] => none
  | c :: p =>
    match utf8Lead c with
    | none => none
    | some (u, overlong, n) =>
      if n ≤ p.length then
        match utf8Continue u n p with
        | none => none
        | some (u, p) =>
          if overlong < u ∧ u < 0x110000 ∧ ¬ (0xD800 ≤ u ∧ u ≤ 0xDFFF) then some (u, p) else none
      else none

def utf8Decode : Bytes → Option (ℕ × Bytes)
  | [] => none
  | c :: p => if c < 0x80 then some (c.toNat, p) else utf8Decode2 (c :: p)

/-- The length that a leading byte announces; zero if it cannot lead. -/
def utf8Length (c : UInt8) : ℕ :=
  if c ≥ 0xF0 then if c ≤ 0xF4 then 4 else 0
  else if c ≥ 0xE0 then 3
  else if c ≥ 0xC2 then 2 else 0

/-- The beginning `seq`, completed to four bytes with the least ones. -/
def utf8Complete (seq : Bytes) : Bytes :=
  let buf :=
    match seq with
    | [c] => [c, if c = 0xE0 then 0xA0 else if c = 0xF0 then 0x90 else 0x80]
    | seq => seq
  buf ++ List.replicate (4 - buf.length) 0x80

def utf8Begin (seq : Bytes) : PrefixCode.Verdict :=
  let len := utf8Length (seq.headD 0)
  if len = 0 then .bad
  else if seq.length < len then
    if (utf8Decode (utf8Complete seq)).isNone then .bad else .more
  else if (utf8Decode seq).isNone then .bad
  else .word

/-! ### The syntax -/

def IsTail (b : UInt8) : Prop := 0x80 ≤ b ∧ b ≤ 0xBF

def IsPair3 (a b : UInt8) : Prop :=
  a = 0xE0 ∧ 0xA0 ≤ b ∧ b ≤ 0xBF ∨ 0xE1 ≤ a ∧ a ≤ 0xEC ∧ IsTail b ∨
    a = 0xED ∧ 0x80 ≤ b ∧ b ≤ 0x9F ∨ 0xEE ≤ a ∧ a ≤ 0xEF ∧ IsTail b

def IsPair4 (a b : UInt8) : Prop :=
  a = 0xF0 ∧ 0x90 ≤ b ∧ b ≤ 0xBF ∨ 0xF1 ≤ a ∧ a ≤ 0xF3 ∧ IsTail b ∨
    a = 0xF4 ∧ 0x80 ≤ b ∧ b ≤ 0x8F

/-- The encoding of one character, by the ranges of its bytes. -/
def IsChar : Bytes → Prop
  | [a] => a ≤ 0x7F
  | [a, b] => (0xC2 ≤ a ∧ a ≤ 0xDF) ∧ IsTail b
  | [a, b, c] => IsPair3 a b ∧ IsTail c
  | [a, b, c, d] => IsPair4 a b ∧ IsTail c ∧ IsTail d
  | _ => False

abbrev WellFormed (s : Bytes) : Prop := Words IsChar s

instance (b : UInt8) : Decidable (IsTail b) := by unfold IsTail; infer_instance

instance (a b : UInt8) : Decidable (IsPair3 a b) := by unfold IsPair3; infer_instance

instance (a b : UInt8) : Decidable (IsPair4 a b) := by unfold IsPair4; infer_instance

/-! ### The decoder -/

theorem not_isTail_iff : ∀ c : UInt8, c - 0x80 > 0x3F ↔ ¬ IsTail c := by decide +kernel

/-- A continuation byte has six bits of the character. -/
theorem tail_bits : ∀ c : UInt8, IsTail c →
    (c - 0x80).toNat = c.toNat - 0x80 ∧ 0x80 ≤ c.toNat ∧ c.toNat < 0x80 + 64 := by
  decide +kernel

theorem utf8Continue_succ (u n : ℕ) (c : UInt8) (p : Bytes) : utf8Continue u (n + 1) (c :: p)
      = if IsTail c then utf8Continue (u * 64 + (c.toNat - 0x80)) n p else none := by
  rw [utf8Continue]
  by_cases hc : IsTail c
  · obtain ⟨hbits, hlow, hhigh⟩ := tail_bits c hc
    have hor : (u <<< 6) ||| (c.toNat - 0x80) = u * 64 + (c.toNat - 0x80) := by
      rw [← Nat.shiftLeft_add_eq_or_of_lt (by omega), Nat.shiftLeft_eq]
    rw [if_neg (fun h => (not_isTail_iff c).mp h hc), if_pos hc, hbits, hor]
  · rw [if_pos ((not_isTail_iff c).mpr hc), if_neg hc]

/-- The bits of a leading byte, by its range. -/
theorem utf8Lead_cases : ∀ a : UInt8,
    (0xC2 ≤ a ∧ a ≤ 0xDF → utf8Lead a = some (a.toNat - 0xC0, 0x7F, 1)) ∧
    (0xE0 ≤ a ∧ a ≤ 0xEF → utf8Lead a = some (a.toNat - 0xE0, 0x7FF, 2)) ∧
    (0xF0 ≤ a ∧ a ≤ 0xF4 → utf8Lead a = some (a.toNat - 0xF0, 0xFFFF, 3)) := by
  decide +kernel

/-- The character of the bits of a leading byte and of the bytes behind it. -/
def tailBits (u : ℕ) (s : Bytes) : ℕ := s.foldl (fun u c => u * 64 + (c.toNat - 0x80)) u

theorem utf8Continue_append (u : ℕ) (s p : Bytes) : utf8Continue u s.length (s ++ p)
      = if ∀ c ∈ s, IsTail c then some (tailBits u s, p) else none := by
  induction s generalizing u with
  | nil => simp [utf8Continue, tailBits]
  | cons c s ih => ?_
  rw [length_cons, cons_append, utf8Continue_succ, ih]
  by_cases hc : IsTail c
  · simp [hc, tailBits]
  · simp [hc]

variable {a b : UInt8}

/-- The decoder behind a leading byte: continuation bytes, and a character that
is neither overlong nor a surrogate. -/
theorem utf8Decode_lead {u l : ℕ} {s : Bytes} (hbig : ¬ a < 0x80)
    (hlead : utf8Lead a = some (u, l, s.length)) (p : Bytes) :
    (utf8Decode (a :: (s ++ p))).isSome = true ↔ (∀ c ∈ s, IsTail c) ∧ l < tailBits u s ∧
      tailBits u s < 0x110000 ∧ ¬ (0xD800 ≤ tailBits u s ∧ tailBits u s ≤ 0xDFFF) := by
  rw [utf8Decode, if_neg hbig, utf8Decode2, hlead]
  dsimp only
  rw [if_pos (by simp), utf8Continue_append]
  by_cases hs : ∀ c ∈ s, IsTail c
  · rw [if_pos hs, and_iff_right hs]
    dsimp only
    split <;> simp_all
  rw [if_neg hs]
  exact iff_of_false nofun fun h => hs h.1

theorem utf8Decode_two (h1 : 0xC2 ≤ a) (h2 : a ≤ 0xDF) (b : UInt8) (p : Bytes) :
    (utf8Decode (a :: b :: p)).isSome = true ↔ IsTail b := by
  have hlead := (utf8Lead_cases a).1 ⟨h1, h2⟩
  have hbig : ¬ a < 0x80 := by grind
  refine Iff.trans (utf8Decode_lead (s := [b]) hbig hlead p) ?_
  simp only [forall_mem_singleton, tailBits, foldl, IsTail, UInt8.le_iff_toNat_le,
    UInt8.reduceToNat] at h1 h2 ⊢
  omega

/-- Three bytes: no overlong form and no surrogate. -/
theorem utf8Decode_three (h1 : 0xE0 ≤ a) (h2 : a ≤ 0xEF) (b c : UInt8) (p : Bytes) :
    (utf8Decode (a :: b :: c :: p)).isSome = true ↔ IsPair3 a b ∧ IsTail c := by
  have hlead := (utf8Lead_cases a).2.1 ⟨h1, h2⟩
  have hbig : ¬ a < 0x80 := by grind
  refine Iff.trans (utf8Decode_lead (s := [b, c]) hbig hlead p) ?_
  simp only [forall_mem_cons, not_mem_nil, false_implies, implies_true, and_true,
    tailBits, foldl, IsPair3, IsTail, UInt8.le_iff_toNat_le, ← UInt8.toNat_inj,
    UInt8.reduceToNat] at h1 h2 ⊢
  omega

/-- Four bytes: no overlong form and nothing beyond the last character. -/
theorem utf8Decode_four (h1 : 0xF0 ≤ a) (h2 : a ≤ 0xF4) (b c d : UInt8) (p : Bytes) :
    (utf8Decode (a :: b :: c :: d :: p)).isSome = true ↔ IsPair4 a b ∧ IsTail c ∧ IsTail d := by
  have hlead := (utf8Lead_cases a).2.2 ⟨h1, h2⟩
  have hbig : ¬ a < 0x80 := by grind
  refine Iff.trans (utf8Decode_lead (s := [b, c, d]) hbig hlead p) ?_
  simp only [forall_mem_cons, not_mem_nil, false_implies, implies_true, and_true,
    tailBits, foldl, IsPair4, IsTail, UInt8.le_iff_toNat_le, ← UInt8.toNat_inj,
    UInt8.reduceToNat] at h1 h2 ⊢
  omega

/-! ### Beginnings -/

theorem begins_nil : PrefixCode.Begins IsChar [] := ⟨[0], by decide, (by decide : (0 : UInt8) ≤ 0x7F)⟩

theorem pair3_lead (h : IsPair3 a b) : 0xE0 ≤ a ∧ a ≤ 0xEF := by
  simp only [IsPair3, IsTail, UInt8.le_iff_toNat_le, ← UInt8.toNat_inj, UInt8.reduceToNat] at h ⊢
  omega

theorem pair4_lead (h : IsPair4 a b) : 0xF0 ≤ a ∧ a ≤ 0xF4 := by
  simp only [IsPair4, IsTail, UInt8.le_iff_toNat_le, ← UInt8.toNat_inj, UInt8.reduceToNat] at h ⊢
  omega

theorem utf8Length_two (h1 : 0xC2 ≤ a) (h2 : a ≤ 0xDF) : utf8Length a = 2 := by
  grind [utf8Length]

theorem utf8Length_three (h : 0xE0 ≤ a ∧ a ≤ 0xEF) : utf8Length a = 3 := by
  grind [utf8Length]

theorem utf8Length_four (h : 0xF0 ≤ a ∧ a ≤ 0xF4) : utf8Length a = 4 := by
  grind [utf8Length]

/-- The first byte of a character tells its length. -/
theorem isChar_length {s : Bytes} (h : IsChar (a :: s)) :
    (a :: s).length = if a ≤ 0x7F then 1 else utf8Length a := by
  match s, h with
  | [], h => exact (if_pos h).symm
  | [_], h =>
    rw [utf8Length_two h.1.1 h.1.2, if_neg fun hle => absurd (UInt8.le_trans h.1.1 hle) (by decide)]
    rfl
  | [_, _], h =>
    have hlead := pair3_lead h.1
    rw [utf8Length_three hlead, if_neg fun hle => absurd (UInt8.le_trans hlead.1 hle) (by decide)]
    rfl
  | [_, _, _], h =>
    have hlead := pair4_lead h.1
    rw [utf8Length_four hlead, if_neg fun hle => absurd (UInt8.le_trans hlead.1 hle) (by decide)]
    rfl

/-- **The characters are a prefix code.** -/
theorem isCode_isChar : IsCode IsChar where
  ne_nil := by
    rintro w hw rfl
    exact hw
  free := by
    intro u v hu huv
    match u, hu, huv with
    | a :: u, hu, huv =>
      have hlen : (a :: (u ++ v)).length = (a :: u).length :=
        (isChar_length huv).trans (isChar_length hu).symm
      rw [length_cons, length_cons, length_append] at hlen
      exact length_eq_zero_iff.mp (by omega)

theorem begins_one : PrefixCode.Begins IsChar [a] ↔ 0xC2 ≤ a ∧ a ≤ 0xF4 := by
  constructor
  · rintro ⟨s, hs, h⟩
    match s, hs, h with
    | [b], _, ⟨h, _⟩ => exact ⟨h.1, UInt8.le_trans h.2 (by decide)⟩
    | [b, _], _, ⟨h, _⟩ =>
      exact ⟨UInt8.le_trans (by decide) (pair3_lead h).1, UInt8.le_trans (pair3_lead h).2 (by decide)⟩
    | [b, _, _], _, ⟨h, _⟩ =>
      exact ⟨UInt8.le_trans (by decide) (pair4_lead h).1, (pair4_lead h).2⟩
  · intro h
    have hsome : ∀ a : UInt8, 0xC2 ≤ a ∧ a ≤ 0xF4 →
        (0xC2 ≤ a ∧ a ≤ 0xDF) ∨ IsPair3 a 0x80 ∨ IsPair3 a 0xA0 ∨ IsPair4 a 0x80 ∨ IsPair4 a 0x90 := by
      grind [IsPair3, IsPair4, IsTail]
    have htail : IsTail 0x80 := by decide
    rcases hsome a h with h | h | h | h | h
    · exact ⟨[0x80], nofun, h, htail⟩
    · exact ⟨[0x80, 0x80], nofun, h, htail⟩
    · exact ⟨[0xA0, 0x80], nofun, h, htail⟩
    · exact ⟨[0x80, 0x80, 0x80], nofun, h, htail, htail⟩
    · exact ⟨[0x90, 0x80, 0x80], nofun, h, htail, htail⟩

theorem begins_two : PrefixCode.Begins IsChar [a, b] ↔ IsPair3 a b ∨ IsPair4 a b := by
  have htail : IsTail 0x80 := by decide
  constructor
  · rintro ⟨s, hs, h⟩
    match s, hs, h with
    | [_], _, ⟨h, _⟩ => exact .inl h
    | [_, _], _, ⟨h, _⟩ => exact .inr h
  · rintro (h | h)
    · exact ⟨[0x80], nofun, h, htail⟩
    · exact ⟨[0x80, 0x80], nofun, h, htail, htail⟩

theorem begins_three {c : UInt8} : PrefixCode.Begins IsChar [a, b, c] ↔ IsPair4 a b ∧ IsTail c := by
  have htail : IsTail 0x80 := by decide
  constructor
  · rintro ⟨s, hs, h⟩
    match s, hs, h with
    | [_], _, ⟨h, hc, _⟩ => exact ⟨h, hc⟩
  · rintro ⟨h, hc⟩
    exact ⟨[0x80], nofun, h, hc, htail⟩

theorem not_begins_of_length {t : Bytes} (h : 4 ≤ t.length) : ¬ PrefixCode.Begins IsChar t := by
  rintro ⟨s, hs, hchar⟩
  match t, h with
  | a :: b :: c :: d :: t, _ =>
    cases s with
    | nil => exact hs rfl
    | cons x s => ?_
    cases t with
    | nil | cons => exact hchar

/-! ### The verdict of the source -/

/-- The test of `nxt_h1p_ws_utf8_validate`, where one byte below 0x80 is taken
before `nxt_h1p_ws_utf8_begin` is asked. -/
def textVerdict (seq : Bytes) : PrefixCode.Verdict :=
  if seq.length = 1 ∧ seq.headD 0 < 0x80 then .word else utf8Begin seq

theorem isNone_iff_not {α : Type*} {o : Option α} {P : Prop} (h : o.isSome = true ↔ P) :
    o.isNone = true ↔ ¬ P := by
  rw [← h, Bool.not_eq_true, Option.isSome_eq_false_iff]

/-- A complete sequence: it is a character or nothing. -/
theorem right_of_complete {seq : Bytes} {P : Prop} (hdecode : (utf8Decode seq).isSome = true ↔ P)
    (hchar : IsChar seq ↔ P) (hbegins : ¬ PrefixCode.Begins IsChar seq) :
    Right IsChar seq (if (utf8Decode seq).isNone then .bad else .word) := by
  split
  case isTrue h => exact ⟨fun hc => (isNone_iff_not hdecode).mp h (hchar.mp hc), hbegins⟩
  case isFalse h =>
    exact hchar.mpr (by_contra fun hp => h ((isNone_iff_not hdecode).mpr hp))

/-- A shorter one: it begins a character or nothing. -/
theorem right_of_short {seq buf : Bytes} {P : Prop}
    (hdecode : (utf8Decode buf).isSome = true ↔ P) (hbegins : PrefixCode.Begins IsChar seq ↔ P)
    (hchar : ¬ IsChar seq) :
    Right IsChar seq (if (utf8Decode buf).isNone then .bad else .more) := by
  split
  case isTrue h => exact ⟨hchar, fun hb => (isNone_iff_not hdecode).mp h (hbegins.mp hb)⟩
  case isFalse h =>
    exact hbegins.mpr (by_contra fun hp => h ((isNone_iff_not hdecode).mpr hp))

theorem right_one (c : UInt8) : Right IsChar [c] (textVerdict [c]) := by
  have hall : ∀ c : UInt8, textVerdict [c] = .word ∧ c ≤ 0x7F ∨
      textVerdict [c] = .more ∧ 0xC2 ≤ c ∧ c ≤ 0xF4 ∨
      textVerdict [c] = .bad ∧ ¬ c ≤ 0x7F ∧ ¬ (0xC2 ≤ c ∧ c ≤ 0xF4) := by
    decide +kernel
  rcases hall c with ⟨hv, h⟩ | ⟨hv, h⟩ | ⟨hv, h, h'⟩
  · exact hv ▸ h
  · exact hv ▸ begins_one.mpr h
  · exact hv ▸ ⟨h, fun hb => h' (begins_one.mp hb)⟩

theorem right_two (h1 : 0xC2 ≤ a) (h2 : a ≤ 0xF4) (c : UInt8) :
    Right IsChar [a, c] (utf8Begin [a, c]) := by
  have htail : IsTail 0x80 := by decide
  have hlen : 0xE0 ≤ a → ¬ IsChar [a, c] := fun hbig h => absurd (UInt8.le_trans hbig h.1.2) (by decide)
  rw [utf8Begin]
  -- the length that the leading byte announces decides whether two bytes are enough
  by_cases hr : a ≤ 0xDF
  · simp only [headD_cons, utf8Length_two h1 hr, length_cons, length_nil]
    refine right_of_complete (utf8Decode_two h1 hr c []) (and_iff_right ⟨h1, hr⟩) ?_
    rw [begins_two]
    rintro (h | h)
    · exact absurd (UInt8.le_trans (pair3_lead h).1 hr) (by decide)
    · exact absurd (UInt8.le_trans (pair4_lead h).1 hr) (by decide)
  by_cases hr' : a ≤ 0xEF
  · have hbig : 0xE0 ≤ a := by grind
    simp only [headD_cons, utf8Length_three ⟨hbig, hr'⟩, length_cons, length_nil]
    refine right_of_short (utf8Decode_three hbig hr' c 0x80 [0x80]) ?_ (hlen hbig)
    rw [begins_two, and_iff_left htail, or_iff_left]
    exact fun h => absurd (UInt8.le_trans (pair4_lead h).1 hr') (by decide)
  have hbig : 0xF0 ≤ a := by grind
  simp only [headD_cons, utf8Length_four ⟨hbig, h2⟩, length_cons, length_nil]
  refine right_of_short (utf8Decode_four hbig h2 c 0x80 0x80 []) ?_
    (hlen (UInt8.le_trans (by decide) hbig))
  rw [begins_two, and_iff_left ⟨htail, htail⟩, or_iff_right]
  exact fun h => absurd (UInt8.le_trans hbig (pair3_lead h).2) (by decide)

theorem right_three (h : IsPair3 a b ∨ IsPair4 a b) (c : UInt8) :
    Right IsChar [a, b, c] (utf8Begin [a, b, c]) := by
  have htail : IsTail 0x80 := by decide
  have hnot : ¬ (IsPair3 a b ∧ IsPair4 a b) := by
    rintro ⟨h3, h4⟩
    exact absurd (UInt8.le_trans (pair4_lead h4).1 (pair3_lead h3).2) (by decide)
  rw [utf8Begin]
  rcases h with h | h
  · obtain ⟨h1, h2⟩ := pair3_lead h
    simp only [headD_cons, utf8Length_three ⟨h1, h2⟩, length_cons, length_nil]
    refine right_of_complete (utf8Decode_three h1 h2 b c []) Iff.rfl ?_
    rw [begins_three]
    exact fun hh => hnot ⟨h, hh.1⟩
  obtain ⟨h1, h2⟩ := pair4_lead h
  simp only [headD_cons, utf8Length_four ⟨h1, h2⟩, length_cons, length_nil]
  refine right_of_short (utf8Decode_four h1 h2 b c 0x80 []) ?_ fun hh => hnot ⟨hh.1, h⟩
  rw [begins_three, and_iff_left htail]

theorem right_four {c : UInt8} (h : IsPair4 a b) (d : UInt8) :
    Right IsChar [a, b, c, d] (utf8Begin [a, b, c, d]) := by
  obtain ⟨h1, h2⟩ := pair4_lead h
  rw [utf8Begin]
  simp only [headD_cons, utf8Length_four ⟨h1, h2⟩, length_cons, length_nil]
  exact right_of_complete (utf8Decode_four h1 h2 b c d []) Iff.rfl (not_begins_of_length le_rfl)

/-- **The source tells characters and their beginnings apart.** -/
theorem textVerdict_classifies : Classifies IsChar textVerdict := by
  intro t c ht
  have hlong : t ≠ [] → textVerdict (t ++ [c]) = utf8Begin (t ++ [c]) := by
    intro hne
    rw [textVerdict, if_neg]
    rintro ⟨hlen, -⟩
    rw [length_append] at hlen
    exact hne (length_eq_zero_iff.mp (by simpa using hlen))
  match t, ht, hlong with
  | [], _, _ => exact right_one c
  | [a], ht, hlong =>
    obtain ⟨h1, h2⟩ := begins_one.mp ht
    exact hlong (by simp) ▸ right_two h1 h2 c
  | [a, b], ht, hlong => exact hlong (by simp) ▸ right_three (begins_two.mp ht) c
  | [a, b, c'], ht, hlong => exact hlong (by simp) ▸ right_four (begins_three.mp ht).1 c
  | _ :: _ :: _ :: _ :: _, ht, _ => exact absurd ht (not_begins_of_length (by simp))

end FreeUnit
