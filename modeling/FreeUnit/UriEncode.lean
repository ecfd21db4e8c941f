/-
URI encoding (`nxt_encode_uri`, `nxt_encode_complex_uri`) and the test for URIs
that are encoded already.

Encoder, sizing call and test step through `reserved`, the string `"?#\0"`, and
take the NUL at its end for a third mark: behind a `?` or `#` a NUL is written
as it is.

* `encodeUri_decoded`, `uriEncodes_iff` — what the encoders promise, the second
  one for URIs without such a NUL.
-/
import FreeUnit.PeerTarget
import FreeUnit.ConfTree

namespace FreeUnit

open List

def encodeUri (src : Bytes) : Bytes := src.flatMap escapeUriByte

/-- `nxt_encode_uri` without a destination. -/
def encodeUriCount (src : Bytes) : ℕ := src.countP uriEscaped

section

variable (beyond : ℕ → UInt8)

/-- `nxt_encode_complex_uri` without a destination. -/
def encodeComplexUriCount : ℕ → Bytes → ℕ
  | _, [] => 0
  | n, ch :: src =>
    if uriEscaped ch then
      if ch = reservedByte beyond n then encodeComplexUriCount (n + 1) src
      else if ch = reservedByte beyond (n + 1) then encodeComplexUriCount (n + 2) src
      else encodeComplexUriCount n src + 1
    else encodeComplexUriCount n src

def isComplexUriEncoded : ℕ → Bytes → Bool
  | _, [] => true
  | n, ch :: src =>
    if uriEscaped ch then
      if ch = 0x25 then
        match src with
        | a :: b :: src => (hexDigit a).isSome && (hexDigit b).isSome && isComplexUriEncoded n src
        | _ => false
      else if ch = reservedByte beyond n then isComplexUriEncoded (n + 1) src
      else if ch = reservedByte beyond (n + 1) then isComplexUriEncoded (n + 2) src
      else false
    else isComplexUriEncoded n src

def isMark (c : UInt8) : Bool := c == 0x3F || c == 0x23

/-- `out` encodes `src` for a reader that is `n` bytes into `reserved`. -/
structure UriEncodes (n : ℕ) (src out : Bytes) : Prop where
  decoded : decodeUri out = some src
  passes : isComplexUriEncoded beyond n out = true
  printable : ∀ c ∈ out, 0x20 < c ∧ c < 0x7F
  marks : out.filter isMark <+ ([0x3F, 0x23] : Bytes).drop n

variable {beyond} {n m : ℕ} {ch : UInt8} {src out : Bytes}

theorem plain_facts : ∀ ch : UInt8, uriEscaped ch = false →
    (0x20 < ch ∧ ch < 0x7F) ∧ ch ≠ 0x25 ∧ isMark ch = false := by decide +kernel

theorem zero_not_mem_percent : ∀ ch : UInt8, 0 ∉ percentByte ch := by decide +kernel

theorem percent_facts : ∀ ch : UInt8, ((percentByte ch).all fun c => 0x20 < c && c < 0x7F) ∧
    (percentByte ch).filter isMark = [] ∧ hexDigit (hexUpper (ch >>> 4)) = some (ch >>> 4) ∧
    hexDigit (hexUpper (ch &&& 0xF)) = some (ch &&& 0xF) ∧ (ch >>> 4) <<< 4 + (ch &&& 0xF) = ch := by
  decide +kernel

theorem decodeUri_cons (hch : ch ≠ 0x25) : decodeUri (ch :: out) = (decodeUri out).map (ch :: ·) := by
  rcases out with _ | ⟨a, _ | ⟨b, out⟩⟩ <;> simp [decodeUri, hch]

theorem isComplexUriEncoded_cons (hch : ch ≠ 0x25) : isComplexUriEncoded beyond n (ch :: out) =
    if uriEscaped ch then
      if ch = reservedByte beyond n then isComplexUriEncoded beyond (n + 1) out
      else if ch = reservedByte beyond (n + 1) then isComplexUriEncoded beyond (n + 2) out
      else false
    else isComplexUriEncoded beyond n out := by
  rcases out with _ | ⟨a, _ | ⟨b, out⟩⟩ <;> simp [isComplexUriEncoded, hch]

theorem decodeUri_percent (ch : UInt8) (out : Bytes) :
    decodeUri (percentByte ch ++ out) = (decodeUri out).map (ch :: ·) := by
  obtain ⟨-, -, h1, h2, h3⟩ := percent_facts ch
  show decodeUri (0x25 :: hexUpper _ :: hexUpper _ :: out) = _
  rw [decodeUri, if_pos rfl]
  simp only [h1, h2, h3]

/-- **The plain encoder**: its output is decoded to the source, and has as many
escapes as were counted. -/
theorem encodeUri_decoded (src : Bytes) : decodeUri (encodeUri src) = some src ∧
    (encodeUri src).length = src.length + 2 * encodeUriCount src := by
  induction src with
  | nil => exact ⟨rfl, rfl⟩
  | cons ch src ih => ?_
  rw [encodeUri, flatMap_cons, ← encodeUri, escapeUriByte, encodeUriCount, countP_cons,
    ← encodeUriCount, length_append, ih.2, length_cons]
  cases he : uriEscaped ch with
  | true =>
    rw [if_pos rfl, decodeUri_percent, ih.1]
    exact ⟨rfl, by simp [percentByte]; omega⟩
  | false => ?_
  rw [if_neg Bool.false_ne_true, singleton_append, decodeUri_cons (plain_facts ch he).2.1, ih.1]
  exact ⟨rfl, by simp; omega⟩

theorem length_encodeComplexUri (src : Bytes) : ∀ n, (encodeComplexUri beyond n src).length =
    src.length + 2 * encodeComplexUriCount beyond n src := by
  induction src with
  | nil => exact fun _ => rfl
  | cons ch src ih => ?_
  intro n
  rw [encodeComplexUri, encodeComplexUriCount]
  split_ifs <;> simp [ih, percentByte] <;> omega

theorem UriEncodes.plain (h : UriEncodes beyond n src out) (hch : uriEscaped ch = false) :
    UriEncodes beyond n (ch :: src) (ch :: out) := by
  obtain ⟨hprint, hpercent, hmark⟩ := plain_facts ch hch
  refine ⟨?_, ?_, forall_mem_cons.mpr ⟨hprint, h.printable⟩, ?_⟩
  · rw [decodeUri_cons hpercent, h.decoded]
    rfl
  · rw [isComplexUriEncoded_cons hpercent, hch, if_neg Bool.false_ne_true, h.passes]
  · rw [filter_cons_of_neg (by simp [hmark])]
    exact h.marks

theorem UriEncodes.percent (h : UriEncodes beyond n src out) (ch : UInt8) :
    UriEncodes beyond n (ch :: src) (percentByte ch ++ out) := by
  obtain ⟨hall, hmark, h1, h2, -⟩ := percent_facts ch
  refine ⟨?_, ?_, forall_mem_append.mpr ⟨by simpa using hall, h.printable⟩, ?_⟩
  · rw [decodeUri_percent, h.decoded]
    rfl
  · show isComplexUriEncoded beyond n (0x25 :: hexUpper _ :: hexUpper _ :: out) = true
    rw [isComplexUriEncoded, if_pos (by decide), if_pos rfl]
    simp [h1, h2, h.passes]
  · rw [filter_append, hmark]
    exact h.marks

/-- A mark of `reserved` that the encoder has not passed. -/
theorem UriEncodes.mark (hm : m = 0 ∧ ch = 0x3F ∨ m = 1 ∧ ch = 0x23) (hn : n ≤ m)
    (h : UriEncodes beyond (m + 1) src out) : UriEncodes beyond n (ch :: src) (ch :: out) := by
  have hdrop := drop_sublist_drop_left ([0x3F, 0x23] : Bytes) hn
  rcases hm with ⟨rfl, rfl⟩ | ⟨rfl, rfl⟩
  all_goals
    refine ⟨?_, ?_, forall_mem_cons.mpr ⟨by decide, h.printable⟩, .trans (h.marks.cons_cons _) hdrop⟩
    · rw [decodeUri_cons (by decide), h.decoded]
      rfl
    · rw [isComplexUriEncoded_cons (by decide), if_pos (by decide)]
      interval_cases n <;> exact h.passes

/-- Where no NUL is written, `reserved` was not read past its marks. -/
theorem uriEncodes_of_not_mem (src : Bytes) : ∀ n ≤ 2, 0 ∉ encodeComplexUri beyond n src →
    UriEncodes beyond n src (encodeComplexUri beyond n src) := by
  induction src with
  | nil => exact fun _ _ _ => ⟨rfl, rfl, by simp [encodeComplexUri], nil_sublist _⟩
  | cons ch src ih => ?_
  intro n hn
  rw [encodeComplexUri]
  split_ifs with hesc h1 h2 <;> intro h0
  · refine (ih (n + 1) ?_ fun h => h0 (.tail _ h)).mark (m := n) ?_ ?_
    all_goals interval_cases n <;> simp_all [reservedByte]
  · refine (ih (n + 2) ?_ fun h => h0 (.tail _ h)).mark (m := n + 1) ?_ ?_
    all_goals interval_cases n <;> simp_all [reservedByte]
  · exact (ih n hn fun h => h0 (mem_append_right _ h)).percent ch
  · exact (ih n hn fun h => h0 (.tail _ h)).plain (by simpa using hesc)

theorem zero_mem_marked (src : Bytes) : ∀ n, n = 1 ∨ n = 2 →
    (0 ∈ encodeComplexUri beyond n src ↔ 0 ∈ src) := by
  induction src with
  | nil => exact fun _ _ => Iff.rfl
  | cons ch src ih => ?_
  intro n hn
  have hp := zero_not_mem_percent ch
  rw [encodeComplexUri]
  by_cases h0 : ch = 0
  · subst h0
    rcases hn with rfl | rfl <;> simp [show uriEscaped 0 = true by decide, reservedByte]
  have h0' := Ne.symm h0
  rcases hn with rfl | rfl <;> split_ifs <;> simp_all [reservedByte]

theorem zero_mem_start (src : Bytes) :
    0 ∈ encodeComplexUri beyond 0 src ↔ 0 ∈ src.dropWhile fun c => !isMark c := by
  induction src with
  | nil => exact Iff.rfl
  | cons ch src ih => ?_
  have hp := zero_not_mem_percent ch
  cases hm : isMark ch with
  | true =>
    rw [dropWhile_cons_of_neg (by simp [hm]), encodeComplexUri]
    have hm : ch = 0x3F ∨ ch = 0x23 := by simpa [isMark] using hm
    rcases hm with rfl | rfl <;> rw [if_pos (by decide)] <;>
      simp [reservedByte, zero_mem_marked]
  | false => ?_
  rw [dropWhile_cons_of_pos (by simp [hm]), ← ih, encodeComplexUri]
  have hm : ch ≠ 0x3F ∧ ch ≠ 0x23 := by simpa [isMark] using hm
  split_ifs with hesc <;> simp_all [reservedByte]
  rintro rfl
  exact absurd hesc (by decide)

/-- **Encoding a URI**: the sizing calls count the escapes, the plain encoder's
output is decoded to its source, and that of the complex one keeps all that it
promises exactly if no NUL stands behind a `?` or `#`. -/
theorem uriEncodes_iff (beyond : ℕ → UInt8) (src : Bytes) :
    (decodeUri (encodeUri src) = some src ∧
      (encodeUri src).length = src.length + 2 * encodeUriCount src) ∧
    (encodeComplexUri beyond 0 src).length = src.length + 2 * encodeComplexUriCount beyond 0 src ∧
    (UriEncodes beyond 0 src (encodeComplexUri beyond 0 src) ↔
      0 ∉ src.dropWhile fun c => !isMark c) := by
  refine ⟨encodeUri_decoded src, length_encodeComplexUri src 0, ?_⟩
  rw [← zero_mem_start]
  exact ⟨fun h h0 => absurd (h.printable 0 h0).1 (by decide), uriEncodes_of_not_mem src 0 (by decide)⟩

/-- The two bytes `?` and NUL are written as they are. -/
theorem uriEncodes_nul : ¬ UriEncodes (fun _ => 0) 0 [0x3F, 0x00]
    (encodeComplexUri (fun _ => 0) 0 [0x3F, 0x00]) := by
  intro h
  exact absurd (h.printable 0 (by decide)).1 (by decide)

/-- `nxt_http_return_encode` -/
def httpReturnEncode (beyond : ℕ → UInt8) (location : Bytes) : Bytes :=
  if isComplexUriEncoded beyond 0 location then location else encodeComplexUri beyond 0 location

theorem hexDigit_printable : ∀ c : UInt8, (hexDigit c).isSome → 0x20 < c ∧ c < 0x7F := by
  decide +kernel

theorem printable_of_encoded (hn : n ≤ 2) (h : isComplexUriEncoded beyond n out = true)
    (h0 : 0 ∉ out) : ∀ c ∈ out, 0x20 < c ∧ c < 0x7F := by
  fun_induction isComplexUriEncoded beyond n out with
  | case4 n | case5 n => interval_cases n <;> simp_all [reservedByte]
  | _ => simp_all [hexDigit_printable, plain_facts]

/-- **The location of a redirect** that holds no NUL is sent in printable bytes,
so it ends no header line, and encoding it again changes nothing. -/
theorem httpReturnEncode_printable (beyond : ℕ → UInt8) (location : Bytes) (h0 : 0 ∉ location) :
    (∀ c ∈ httpReturnEncode beyond location, 0x20 < c ∧ c < 0x7F) ∧
      httpReturnEncode beyond (httpReturnEncode beyond location) =
        httpReturnEncode beyond location := by
  by_cases h : isComplexUriEncoded beyond 0 location = true
  · rw [httpReturnEncode, if_pos h, httpReturnEncode, if_pos h]
    exact ⟨printable_of_encoded (by decide) h h0, rfl⟩
  have henc : UriEncodes beyond 0 location (encodeComplexUri beyond 0 location) := by
    refine uriEncodes_of_not_mem location 0 (by decide) ?_
    rw [zero_mem_start]
    exact fun hmem => h0 ((dropWhile_sublist _).subset hmem)
  rw [httpReturnEncode, if_neg h, httpReturnEncode, if_pos henc.passes]
  exact ⟨henc.printable, rfl⟩

theorem httpReturnEncode_printable_crlf :
    0x0A ∉ httpReturnEncode (fun _ => 0) (str "/\r\nX: 1") := fun h =>
  absurd ((httpReturnEncode_printable _ _ (by decide)).1 _ h).1 (by decide)

end
end FreeUnit
