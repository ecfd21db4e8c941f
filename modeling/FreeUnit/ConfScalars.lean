/-
Strings and numbers of the configuration, printed and parsed again.

Between its quotes a JSON string is a list of items: a plain byte, an escape
of one letter, or an escape of four hexadecimal digits.  The parser's two
loops read the same items; its size check counts an item by the bytes it can
decode to at most.

* `strScan_items`, `items_of_strScan` — the scan accepts exactly the lists of
  items;
* `jsonParseString_print` — a printed string is read back, if its size fits;
* `stringFits_of_parse` — the size of a parsed string fits when it is printed.
-/
import FreeUnit.ConfJson
import FreeUnit.ConfPrint

namespace FreeUnit

open List Option

/-! ### Items of a string -/

inductive StrItem where
  | plain (ch : UInt8)
  | escape (ch : UInt8)
  | encoded (a b c d : UInt8)
  deriving DecidableEq, Repr

def StrItem.bytes : StrItem → Bytes
  | .plain ch => [ch]
  | .escape ch => [0x5C, ch]
  | .encoded a b c d => [0x5C, 0x75, a, b, c, d]

/-- What the scan adds to `surplus`. -/
def StrItem.surplus : StrItem → ℕ
  | .plain _ => 0
  | .escape _ => 1
  | .encoded _ _ _ _ => 3

/-- The share of an item in the size that the parser checks. -/
def StrItem.size : StrItem → ℕ
  | .plain _ | .escape _ => 1
  | .encoded _ _ _ _ => 3

def StrItem.Ok : StrItem → Prop
  | .plain ch => ch ≠ 0x22 ∧ ch ≠ 0x5C ∧ 0x20 ≤ ch
  | .escape ch => (simpleEscape ch).isSome
  | .encoded a b c d =>
    (hexDigit a).isSome ∧ (hexDigit b).isSome ∧ (hexDigit c).isSome ∧ (hexDigit d).isSome

def itemBytes (items : List StrItem) : Bytes := items.flatMap StrItem.bytes

def itemSurplus (items : List StrItem) : ℕ := (items.map StrItem.surplus).sum

def itemSize (items : List StrItem) : ℕ := (items.map StrItem.size).sum

@[simp] theorem itemBytes_nil : itemBytes [] = [] := rfl
@[simp] theorem itemSurplus_nil : itemSurplus [] = 0 := rfl
@[simp] theorem itemSize_nil : itemSize [] = 0 := rfl

@[simp] theorem itemBytes_cons (item : StrItem) (items : List StrItem) :
    itemBytes (item :: items) = item.bytes ++ itemBytes items := rfl

@[simp] theorem itemSurplus_cons (item : StrItem) (items : List StrItem) :
    itemSurplus (item :: items) = item.surplus + itemSurplus items := rfl

@[simp] theorem itemSize_cons (item : StrItem) (items : List StrItem) :
    itemSize (item :: items) = item.size + itemSize items := rfl

/-- The size is what the parser computes from the length and the surplus. -/
theorem itemSize_eq (items : List StrItem) :
    itemSize items = (itemBytes items).length - itemSurplus items ∧
      itemSurplus items ≤ (itemBytes items).length := by
  induction items with
  | nil => simp
  | cons item items ih => ?_
  cases item <;>
    simp only [itemSize_cons, itemBytes_cons, itemSurplus_cons, length_append,
      StrItem.bytes, StrItem.size, StrItem.surplus, length_cons, length_nil] <;>
    omega

/-! ### The scan -/

variable {a b c d ch : UInt8} {p s q rest : Bytes}

variable {k : ℕ}

theorem strScan_encoded (ha : (hexDigit a).isSome) (hb : (hexDigit b).isSome)
    (hc : (hexDigit c).isSome) (hd : (hexDigit d).isSome) (p : Bytes) :
    strScan (.encoded 1) k (a :: b :: c :: d :: p) = strScan .usual k p := by
  simp [strScan, ha, hb, hc, hd]

theorem digits_of_strScan {r : ℕ × Bytes} (h : strScan (.encoded 1) k p = .ok r) :
    ∃ a b c d q, p = a :: b :: c :: d :: q ∧ (StrItem.encoded a b c d).Ok ∧
      strScan .usual k q = .ok r := by
  have step : ∀ {digit : ℕ} {p : Bytes}, strScan (.encoded digit) k p = .ok r →
      ∃ a q, p = a :: q ∧ (hexDigit a).isSome ∧
        strScan (if digit = 4 then .usual else .encoded (digit + 1)) k q = .ok r := by
    intro digit p h
    cases p with
    | nil => cases h
    | cons a q => ?_
    rw [strScan] at h
    by_cases ha : (hexDigit a).isSome
    · rw [if_pos ha] at h
      exact ⟨a, q, rfl, ha, h⟩
    rw [if_neg ha] at h
    cases h
  obtain ⟨a, p1, rfl, ha, h1⟩ := step h
  obtain ⟨b, p2, rfl, hb, h2⟩ := step h1
  obtain ⟨c, p3, rfl, hc, h3⟩ := step h2
  obtain ⟨d, p4, rfl, hd, h4⟩ := step h3
  exact ⟨a, b, c, d, p4, rfl, ⟨ha, hb, hc, hd⟩, h4⟩

variable {item : StrItem}

theorem strScan_item (h : item.Ok) (k : ℕ) (p : Bytes) :
    strScan .usual k (item.bytes ++ p) = strScan .usual (k + item.surplus) p := by
  cases item with
  | plain ch =>
    obtain ⟨hquote, hslash, hspace⟩ := h
    simp [StrItem.bytes, StrItem.surplus, strScan, hquote, hslash, hspace]
  | escape ch =>
    have hch : (simpleEscape ch).isSome := h
    simp [StrItem.bytes, StrItem.surplus, strScan, hch]
  | encoded a b c d => ?_
  obtain ⟨ha, hb, hc, hd⟩ := h
  have hu : (simpleEscape 0x75).isSome = false := by decide
  show strScan .usual k (0x5C :: 0x75 :: a :: b :: c :: d :: p) = _
  rw [strScan, if_neg (by decide), if_pos rfl, strScan, hu, if_neg (by decide), if_pos rfl,
    strScan_encoded ha hb hc hd]
  rfl

/-- The scan over a list of items stops at the quote behind them. -/
theorem strScan_items : ∀ {items : List StrItem}, (∀ item ∈ items, item.Ok) → ∀ (k : ℕ)
    (rest : Bytes), strScan .usual k (itemBytes items ++ 0x22 :: rest) =
      .ok (k + itemSurplus items, 0x22 :: rest) := by
  intro items
  induction items with
  | nil =>
    intro _ k rest
    simp [strScan]
  | cons item items ih => ?_
  intro hok k rest
  rw [itemBytes_cons, append_assoc, strScan_item (hok item (by simp)),
    ih (fun i hi => hok i (mem_cons_of_mem _ hi)), itemSurplus_cons, Nat.add_assoc]

theorem items_of_strScan : ∀ (n : ℕ) {p : Bytes}, p.length ≤ n → ∀ {k k' : ℕ} {last : Bytes},
    strScan .usual k p = .ok (k', last) →
    ∃ items rest, (∀ item ∈ items, StrItem.Ok item) ∧ last = 0x22 :: rest ∧
      p = itemBytes items ++ last ∧ k' = k + itemSurplus items := by
  intro n
  induction n with
  | zero =>
    intro p hn k k' last h
    rw [length_eq_zero_iff.mp (Nat.le_zero.mp hn), strScan] at h
    cases h
  | succ n ih => ?_
  intro p hn k k' last h
  -- one item in front, the induction hypothesis on what follows it
  have extend : ∀ (item : StrItem) {q : Bytes} {j : ℕ}, item.Ok → p = item.bytes ++ q →
      j = k + item.surplus → strScan .usual j q = .ok (k', last) →
      ∃ items rest, (∀ item ∈ items, StrItem.Ok item) ∧ last = 0x22 :: rest ∧
        p = itemBytes items ++ last ∧ k' = k + itemSurplus items := by
    intro item q j hitem hp hj hscan
    have hlen : q.length ≤ n := by
      have : 0 < item.bytes.length := by cases item <;> simp [StrItem.bytes]
      rw [hp, length_append] at hn
      omega
    obtain ⟨items, rest, hok, hlast, hq, hk⟩ := ih hlen hscan
    refine ⟨item :: items, rest, ?_, hlast, ?_, ?_⟩
    · rintro i (_ | ⟨_, hi⟩)
      · exact hitem
      · exact hok i hi
    · rw [hp, hq, itemBytes_cons, append_assoc]
    · rw [hk, hj, itemSurplus_cons, Nat.add_assoc]
  cases p with
  | nil => cases h
  | cons ch p => ?_
  rw [strScan] at h
  split_ifs at h with hquote hslash hspace
  · cases h
    exact ⟨[], p, by simp, by rw [hquote], rfl, rfl⟩
  · cases p with
    | nil => cases h
    | cons c p => ?_
    rw [strScan] at h
    split_ifs at h with hsimple hu
    · exact extend (.escape c) hsimple (by rw [hslash]; rfl) rfl h
    · obtain ⟨a, b, c', d, q, rfl, hdigits, hscan⟩ := digits_of_strScan h
      exact extend (.encoded a b c' d) hdigits (by rw [hslash, hu]; rfl) rfl hscan
    · cases h
  · exact extend (.plain ch) ⟨hquote, hslash, hspace⟩ rfl rfl h
  · cases h

/-! ### The decoding -/

@[simp] theorem strDecode_plain (last p : Bytes) (h : ch ≠ 0x5C) :
    strDecode last (ch :: p) = (ch :: ·) <$> strDecode last p := by
  rw [strDecode.eq_def]
  simp only [ne_eq, h, not_false_eq_true, if_true]

theorem strDecode_escape (last p : Bytes) (h : simpleEscape ch = some b) :
    strDecode last (0x5C :: ch :: p) = (b :: ·) <$> strDecode last p := by
  rw [strDecode.eq_def]
  simp [h]

theorem strDecode_encoded (last p : Bytes)
    (h : encodedValue a b c d < 0xD800 ∨ encodedValue a b c d > 0xDFFF) :
    strDecode last (0x5C :: 0x75 :: a :: b :: c :: d :: p) =
      (utf8Encode (encodedValue a b c d) ++ ·) <$> strDecode last p := by
  have hu : simpleEscape 0x75 = none := by decide
  rw [strDecode.eq_def]
  simp [hu, h]

/-- A surrogate is decoded only with a second one behind it. -/
theorem strDecode_surrogate {last : Bytes}
    (hsur : ¬ (encodedValue a b c d < 0xD800 ∨ encodedValue a b c d > 0xDFFF))
    (h : strDecode last (0x5C :: 0x75 :: a :: b :: c :: d :: p) = .ok s) :
    ∃ a' b' c' d' q t u, p = 0x5C :: 0x75 :: a' :: b' :: c' :: d' :: q ∧
      strDecode last q = .ok t ∧ s = utf8Encode u ++ t ∧ 0x10000 ≤ u := by
  have hu : simpleEscape 0x75 = none := by decide
  rw [strDecode.eq_def] at h
  simp only [ne_eq, not_true_eq_false, if_false, hu, hsur] at h
  split_ifs at h with hhigh
  · cases h
  split at h
  · next e0 e1 d4 d5 d6 d7 q' =>
    split_ifs at h with hmark hlow
    · cases h
    · cases h
    obtain ⟨rfl, rfl⟩ : e0 = 0x5C ∧ e1 = 0x75 := by
      constructor
      · by_contra hne
        exact hmark (.inl hne)
      · by_contra hne
        exact hmark (.inr hne)
    cases ht : strDecode last q' with
    | error e =>
      rw [ht] at h
      cases h
    | ok t => ?_
    rw [ht] at h
    exact ⟨d4, d5, d6, d7, q', t, _, rfl, ht, (Except.ok.inj h).symm, by omega⟩
  · cases h

/-! ### Printed strings -/

def escapeItem (ch : UInt8) : StrItem :=
  if ch > 0x1F then
    if ch = 0x5C ∨ ch = 0x22 then .escape ch else .plain ch
  else if ch = 0x0A then .escape 0x6E
  else if ch = 0x0D then .escape 0x72
  else if ch = 0x09 then .escape 0x74
  else if ch = 0x08 then .escape 0x62
  else if ch = 0x0C then .escape 0x66
  else .encoded 0x30 0x30 ((0x30 : UInt8) + (ch >>> 4)) (upperHex (ch &&& 0xF))

theorem escapeItem_bytes (ch : UInt8) : (escapeItem ch).bytes = escapeByte ch := by
  rw [escapeItem, escapeByte]
  split_ifs <;> rfl

def StrItem.decoded : StrItem → Option UInt8
  | .plain ch => some ch
  | .escape ch => simpleEscape ch
  | .encoded a b c d =>
    if encodedValue a b c d < 0x80 then some (UInt8.ofNat (encodedValue a b c d)) else none

instance : (item : StrItem) → Decidable item.Ok
  | .plain ch => inferInstanceAs (Decidable (ch ≠ 0x22 ∧ ch ≠ 0x5C ∧ 0x20 ≤ ch))
  | .escape ch => inferInstanceAs (Decidable ((simpleEscape ch).isSome = true))
  | .encoded a b c d => inferInstanceAs (Decidable ((hexDigit a).isSome = true ∧
      (hexDigit b).isSome = true ∧ (hexDigit c).isSome = true ∧ (hexDigit d).isSome = true))

/-- What is printed for a byte is an item that is read back as the byte. -/
theorem escapeItem_spec : ∀ ch : UInt8, (escapeItem ch).Ok ∧ (escapeItem ch).decoded = some ch := by
  decide +kernel

theorem escapeItem_ok (ch : UInt8) : (escapeItem ch).Ok := (escapeItem_spec ch).1

theorem escapeItem_decoded (ch : UInt8) : (escapeItem ch).decoded = some ch :=
  (escapeItem_spec ch).2

theorem strDecode_item (last p : Bytes) (hok : item.Ok) (h : item.decoded = some ch) :
    strDecode last (item.bytes ++ p) = (ch :: ·) <$> strDecode last p := by
  cases item with
  | plain c =>
    cases h
    exact strDecode_plain last p hok.2.1
  | escape c => exact strDecode_escape last p h
  | encoded a b c d => ?_
  rw [StrItem.decoded] at h
  split_ifs at h with hlt
  cases h
  show strDecode last (0x5C :: 0x75 :: a :: b :: c :: d :: p) = _
  rw [strDecode_encoded last p (.inl (by omega)), utf8Encode, if_pos hlt]
  rfl

def escapeItems (s : Bytes) : List StrItem := s.map escapeItem

theorem itemBytes_escapeItems (s : Bytes) : itemBytes (escapeItems s) = jsonEscape s := by
  simp [itemBytes, escapeItems, jsonEscape, flatMap_map, escapeItem_bytes]

theorem escapeItems_ok (s : Bytes) : ∀ item ∈ escapeItems s, item.Ok := by
  intro item hitem
  obtain ⟨ch, -, rfl⟩ := mem_map.mp hitem
  exact escapeItem_ok ch

theorem strDecode_jsonEscape (last s : Bytes) : strDecode last (jsonEscape s) = .ok s := by
  induction s with
  | nil => rfl
  | cons ch s ih => ?_
  rw [show jsonEscape (ch :: s) = escapeByte ch ++ jsonEscape s from rfl, ← escapeItem_bytes,
    strDecode_item last _ (escapeItem_ok ch) (escapeItem_decoded ch), ih]
  rfl

/-- The size of a string, as the parser computes it from the printed form,
fits. -/
def StringFits (s : Bytes) : Prop := itemSize (escapeItems s) ≤ confMaxString

/-! ### Whole strings -/

variable {items : List StrItem}

theorem strDecode_of_surplus_eq_zero (last : Bytes) (hok : ∀ item ∈ items, item.Ok)
    (hzero : itemSurplus items = 0) : strDecode last (itemBytes items) = .ok (itemBytes items) := by
  induction items with
  | nil =>
    rfl
  | cons item items ih => ?_
  rw [itemSurplus_cons, Nat.add_eq_zero_iff] at hzero
  cases item with
  | plain ch =>
    rw [itemBytes_cons, StrItem.bytes, singleton_append,
      strDecode_plain last _ (hok (.plain ch) (by simp)).2.1,
      ih (fun i hi => hok i (mem_cons_of_mem _ hi)) hzero.2]
    rfl
  | escape | encoded => exact absurd hzero.1 (by simp [StrItem.surplus])

/-- A string of accepted items whose size fits is what its items decode to. -/
theorem jsonParseString_items (hok : ∀ item ∈ items, item.Ok)
    (hfit : itemSize items ≤ confMaxString) (rest : Bytes) :
    jsonParseString (0x22 :: (itemBytes items ++ 0x22 :: rest)) =
      (·, rest) <$> strDecode (0x22 :: rest) (itemBytes items) := by
  have hbody : (itemBytes items ++ 0x22 :: rest).take
      ((itemBytes items ++ 0x22 :: rest).length - (0x22 :: rest).length) = itemBytes items := by
    rw [length_append, Nat.add_sub_cancel, take_left]
  have hsize : ¬ (itemBytes items).length - itemSurplus items > confMaxString := by
    rw [← (itemSize_eq items).1]
    omega
  have hscan := strScan_items hok 0 rest
  rw [Nat.zero_add] at hscan
  rw [jsonParseString]
  simp only [drop_one, tail_cons, hscan, hbody, hsize, if_false, bind, Except.bind]
  by_cases hzero : itemSurplus items = 0
  · rw [if_pos hzero, strDecode_of_surplus_eq_zero _ hok hzero]
    rfl
  rw [if_neg hzero]
  cases strDecode (0x22 :: rest) (itemBytes items) <;> rfl

theorem jsonParseString_print (hfit : StringFits s) (rest : Bytes) :
    jsonParseString (jsonPrintString s ++ rest) = .ok (s, rest) := by
  have hparse := jsonParseString_items (escapeItems_ok s) hfit rest
  rw [itemBytes_escapeItems, strDecode_jsonEscape] at hparse
  rw [show jsonPrintString s ++ rest = 0x22 :: (jsonEscape s ++ 0x22 :: rest) by
    simp [jsonPrintString]]
  exact hparse

theorem items_of_jsonParseString (h : jsonParseString p = .ok (s, q)) :
    ∃ items, (∀ item ∈ items, StrItem.Ok item) ∧ itemSize items ≤ confMaxString ∧
      p.drop 1 = itemBytes items ++ 0x22 :: q ∧
      strDecode (0x22 :: q) (itemBytes items) = .ok s := by
  rw [jsonParseString] at h
  obtain ⟨r, hscan, h⟩ := bind_eq_ok h
  obtain ⟨items, rest, hok, hlast, hp, hsur⟩ := items_of_strScan _ le_rfl hscan
  have hbody : (p.drop 1).take ((p.drop 1).length - r.2.length) = itemBytes items := by
    rw [hp, length_append, Nat.add_sub_cancel, take_left]
  simp only [hbody] at h
  have hsize : r.1 = itemSurplus items := by simpa using hsur
  rw [hsize, ← (itemSize_eq items).1] at h
  split_ifs at h with hlong hzero
  · cases h
  · cases h
    refine ⟨items, hok, by omega, ?_, strDecode_of_surplus_eq_zero _ hok hzero⟩
    rw [hp, hlast]
    rfl
  obtain ⟨t, hdec, h⟩ := bind_eq_ok h
  cases h
  refine ⟨items, hok, by omega, ?_, ?_⟩
  · rw [hp, hlast]
    rfl
  · rw [← hdec, hlast]
    rfl

/-! ### The size of what was decoded -/

theorem escapeItem_size_le (ch : UInt8) : (escapeItem ch).size ≤ 3 := by
  cases escapeItem ch <;> simp [StrItem.size]

theorem escapeItem_size_eq_one (h : 0x20 ≤ ch) : (escapeItem ch).size = 1 := by
  have key : ∀ ch : UInt8, 0x20 ≤ ch → (escapeItem ch).size = 1 := by decide +kernel
  exact key ch h

theorem escapeItem_size_of_simpleEscape (h : simpleEscape ch = some b) :
    (escapeItem b).size = 1 := by
  have key : ∀ ch : UInt8, (simpleEscape ch).all fun b => (escapeItem b).size = 1 := by
    decide +kernel
  simpa [h] using key ch

theorem itemSize_escapeItems_append (s t : Bytes) :
    itemSize (escapeItems (s ++ t)) = itemSize (escapeItems s) + itemSize (escapeItems t) := by
  simp [itemSize, escapeItems]

theorem itemSize_escapeItems_cons (ch : UInt8) (s : Bytes) :
    itemSize (escapeItems (ch :: s)) = (escapeItem ch).size + itemSize (escapeItems s) := rfl

theorem escapeItem_ofNat_size {n : ℕ} (hlow : 0x20 ≤ n) (hhigh : n < 256) :
    (escapeItem (UInt8.ofNat n)).size = 1 := by
  apply escapeItem_size_eq_one
  rw [UInt8.le_iff_toNat_le]
  simpa [Nat.mod_eq_of_lt hhigh] using hlow

/-- A character takes as many bytes as it is counted for. -/
theorem itemSize_utf8Encode (u : ℕ) :
    itemSize (escapeItems (utf8Encode u)) ≤ if u < 0x10000 then 3 else 4 := by
  rw [utf8Encode]
  split_ifs with h1 h2 h3 h4 h5 h6
  · rw [itemSize_escapeItems_cons]
    exact escapeItem_size_le _
  · omega
  · simp only [itemSize_escapeItems_cons]
    rw [escapeItem_ofNat_size (by omega) (by omega), escapeItem_ofNat_size (by omega) (by omega)]
    exact Nat.le_succ 2
  · omega
  · simp only [itemSize_escapeItems_cons]
    rw [escapeItem_ofNat_size (by omega) (by omega), escapeItem_ofNat_size (by omega) (by omega),
      escapeItem_ofNat_size (by omega) (by omega)]
    exact le_rfl
  · simp only [itemSize_escapeItems_cons]
    rw [escapeItem_ofNat_size (by omega) (by omega), escapeItem_ofNat_size (by omega) (by omega),
      escapeItem_ofNat_size (by omega) (by omega), escapeItem_ofNat_size (by omega) (by omega)]
    exact le_rfl
  · exact Nat.zero_le _

theorem encodedValue_lt (h : (StrItem.encoded a b c d).Ok) : encodedValue a b c d < 0x10000 := by
  have key : ∀ ch : UInt8, (hexDigit ch).isSome → encodedDigit ch < 16 := by decide +kernel
  obtain ⟨ha, hb, hc, hd⟩ := h
  have h1 := key a ha
  have h2 := key b hb
  have h3 := key c hc
  have h4 := key d hd
  rw [encodedValue]
  omega

/-- Only an item of four digits starts with a backslash and a `u`. -/
theorem encoded_of_itemBytes (hok : ∀ item ∈ items, StrItem.Ok item)
    (h : itemBytes items = 0x5C :: 0x75 :: a :: b :: c :: d :: q) :
    ∃ more, items = .encoded a b c d :: more ∧ itemBytes more = q := by
  cases items with
  | nil => cases h
  | cons item more => ?_
  cases item with
  | plain ch =>
    injection h with hch
    exact absurd hch (hok (.plain ch) (by simp)).2.1
  | escape ch =>
    injection h with _ h
    injection h with hch
    have hsimple : (simpleEscape ch).isSome := hok (.escape ch) (by simp)
    rw [hch] at hsimple
    exact absurd hsimple (by decide)
  | encoded a' b' c' d' => ?_
  simp only [itemBytes_cons, StrItem.bytes, cons_append, nil_append, cons.injEq, true_and] at h
  obtain ⟨rfl, rfl, rfl, rfl, hq⟩ := h
  exact ⟨more, rfl, hq⟩

/-- What was decoded is not larger than what was counted. -/
theorem itemSize_of_strDecode (last : Bytes) : ∀ (n : ℕ) {items : List StrItem},
    items.length ≤ n → (∀ item ∈ items, StrItem.Ok item) → ∀ {s : Bytes},
    strDecode last (itemBytes items) = .ok s → itemSize (escapeItems s) ≤ itemSize items := by
  intro n
  induction n with
  | zero =>
    intro items hn _ s h
    rw [length_eq_zero_iff.mp (Nat.le_zero.mp hn)] at h ⊢
    cases h
    exact le_rfl
  | succ n ih => ?_
  intro items hn hok s h
  cases items with
  | nil =>
    cases h
    exact le_rfl
  | cons item items => ?_
  have hmore : ∀ item ∈ items, StrItem.Ok item := fun i hi => hok i (mem_cons_of_mem _ hi)
  have hlen : items.length ≤ n := by simpa using hn
  -- one decoded character in front, the induction hypothesis behind it
  have extend : ∀ {t : Bytes}, itemSize (escapeItems t) ≤ item.size →
      strDecode last (itemBytes (item :: items)) = (t ++ ·) <$> strDecode last (itemBytes items) →
      itemSize (escapeItems s) ≤ itemSize (item :: items) := by
    intro t ht heq
    rw [heq] at h
    cases hdec : strDecode last (itemBytes items) with
    | error e =>
      rw [hdec] at h
      cases h
    | ok r => ?_
    rw [hdec] at h
    cases h
    rw [itemSize_escapeItems_append, itemSize_cons]
    exact Nat.add_le_add ht (ih hlen hmore hdec)
  cases item with
  | plain ch =>
    have hch := hok (.plain ch) (by simp)
    exact extend (t := [ch]) (escapeItem_size_eq_one hch.2.2).le
      (strDecode_plain last _ hch.2.1)
  | escape ch =>
    obtain ⟨b, hb⟩ := isSome_iff_exists.mp (hok (.escape ch) (by simp))
    exact extend (t := [b]) (escapeItem_size_of_simpleEscape hb).le
      (strDecode_escape last _ hb)
  | encoded a b c d => ?_
  by_cases hsur : encodedValue a b c d < 0xD800 ∨ encodedValue a b c d > 0xDFFF
  · refine extend (t := utf8Encode (encodedValue a b c d)) ?_ (strDecode_encoded last _ hsur)
    have hchar := itemSize_utf8Encode (encodedValue a b c d)
    rwa [if_pos (encodedValue_lt (hok (.encoded a b c d) (by simp)))] at hchar
  obtain ⟨a', b', c', d', q, t, u, hq, hdec, rfl, hu⟩ := strDecode_surrogate hsur h
  obtain ⟨more, rfl, rfl⟩ := encoded_of_itemBytes hmore hq
  have hrest := ih (by simp at hlen; omega)
    (fun i hi => hmore i (mem_cons_of_mem _ hi)) hdec
  have hchar := itemSize_utf8Encode u
  rw [if_neg (by omega)] at hchar
  rw [itemSize_escapeItems_append]
  simp only [itemSize_cons, StrItem.size]
  omega

theorem stringFits_of_parse (h : jsonParseString p = .ok (s, q)) : StringFits s := by
  obtain ⟨items, hok, hfit, -, hdec⟩ := items_of_jsonParseString h
  exact (itemSize_of_strDecode _ _ le_rfl hok hdec).trans hfit

/-! ### Numbers -/

/-- What stands behind a value in a printed text: nothing, or a byte that ends
a number. -/
def Terminated (rest : Bytes) : Prop := ∀ ch ∈ rest.head?, endsNumber ch = true

theorem terminated_nil : Terminated [] := by simp [Terminated]

theorem terminated_cons (h : endsNumber ch = true) (rest : Bytes) : Terminated (ch :: rest) := by
  simpa [Terminated] using h

theorem not_number_of_endsNumber (h : endsNumber ch = true) :
    isDigit ch = false ∧ ch ≠ 0x2E ∧ ch ≠ 0x65 ∧ ch ≠ 0x45 ∧ ch ≠ 0x2D ∧ ch ≠ 0x2B := by
  have key : ∀ ch : UInt8, endsNumber ch = true →
      isDigit ch = false ∧ ch ≠ 0x2E ∧ ch ≠ 0x65 ∧ ch ≠ 0x45 ∧ ch ≠ 0x2D ∧ ch ≠ 0x2B := by
    decide +kernel
  exact key ch h

theorem numberScan_append (hrest : Terminated rest) (w : Bytes) (dot : Option Bytes) :
    numberScan (dot.map (· ++ rest)) (w ++ rest) =
      ((numberScan dot w).1.map (· ++ rest), (numberScan dot w).2 ++ rest) := by
  induction w generalizing dot with
  | nil =>
    cases rest with
    | nil => cases dot <;> simp [numberScan]
    | cons ch rest => ?_
    obtain ⟨hdigit, hdot, -⟩ := not_number_of_endsNumber (hrest ch rfl)
    simp [numberScan, hdigit, hdot]
  | cons ch w ih => ?_
  rw [cons_append, numberScan, numberScan]
  by_cases hdigit : isDigit ch
  · simp only [hdigit, if_true]
    exact ih dot
  simp only [hdigit, map_eq_none_iff]
  by_cases hdot : ch = 0x2E ∧ dot = none
  · rw [if_pos hdot, if_pos hdot]
    exact ih (some (ch :: w))
  rw [if_neg hdot, if_neg hdot]
  rfl

theorem numberScan_suffix (p : Bytes) (dot : Option Bytes) : (numberScan dot p).2 <:+ p := by
  induction p generalizing dot with
  | nil =>
    exact suffix_rfl
  | cons ch p ih => ?_
  rw [numberScan]
  split_ifs
  · exact (ih _).trans (suffix_cons ch p)
  · exact (ih _).trans (suffix_cons ch p)
  · exact suffix_rfl

theorem head?_append_iff (hrest : Terminated rest)
    (hc : endsNumber c = false) (p : Bytes) : (p ++ rest).head? = some c ↔ p.head? = some c := by
  cases p with
  | cons ch p => simp
  | nil => ?_
  constructor
  · intro hh
    rw [hrest c hh] at hc
    cases hc
  · intro hh
    cases hh

theorem skipSign_append (hrest : Terminated rest) (s : Bytes) :
    skipSign (s ++ rest) = skipSign s ++ rest := by
  simp only [skipSign, head?_append_iff hrest (show endsNumber 0x2D = false by decide),
    head?_append_iff hrest (show endsNumber 0x2B = false by decide)]
  split_ifs with hsign
  · cases s with
    | nil => simp at hsign
    | cons c s => rfl
  · rfl

theorem skipSign_suffix (s : Bytes) : skipSign s <:+ s := by
  rw [skipSign]
  split_ifs
  · exact drop_suffix 1 s
  · exact suffix_rfl

theorem dropWhile_isDigit_append (hrest : Terminated rest) (s : Bytes) :
    (s ++ rest).dropWhile isDigit = s.dropWhile isDigit ++ rest := by
  cases hs : s.dropWhile isDigit with
  | cons c t => exact dropWhile_append_of_eq_cons hs rest
  | nil => ?_
  rw [dropWhile_append_of_eq_nil hs]
  cases rest with
  | nil => rfl
  | cons ch rest => simp [(not_number_of_endsNumber (hrest ch rfl)).1]

theorem numberExponent_append (hrest : Terminated rest) (p : Bytes) :
    numberExponent (p ++ rest) = (numberExponent p).map (· ++ rest) := by
  simp only [numberExponent, head?_append_iff hrest (show endsNumber 0x65 = false by decide),
    head?_append_iff hrest (show endsNumber 0x45 = false by decide)]
  by_cases he : p.head? = some 0x65 ∨ p.head? = some 0x45
  · rw [if_pos he, if_pos he]
    cases p with
    | nil => simp at he
    | cons ch p => ?_
    simp only [cons_append, drop_one, tail_cons, skipSign_append hrest,
      dropWhile_isDigit_append hrest, append_left_inj]
    split_ifs <;> rfl
  rw [if_neg he, if_neg he]
  rfl

theorem numberExponent_suffix (h : numberExponent p = some q) : q <:+ p := by
  rw [numberExponent] at h
  by_cases he : p.head? = some 0x65 ∨ p.head? = some 0x45
  · rw [if_pos he] at h
    dsimp only at h
    split_ifs at h
    cases h
    exact ((dropWhile_suffix _).trans (skipSign_suffix _)).trans (drop_suffix 1 p)
  rw [if_neg he] at h
  cases h
  exact suffix_rfl

theorem skipMinus_append (hrest : Terminated rest) (s : Bytes) :
    skipMinus (s ++ rest) = skipMinus s ++ rest := by
  simp only [skipMinus, head?_append_iff hrest (show endsNumber 0x2D = false by decide)]
  split_ifs with hminus
  · cases s with
    | nil => simp at hminus
    | cons c s => rfl
  · rfl

theorem skipMinus_suffix (s : Bytes) : skipMinus s <:+ s := by
  rw [skipMinus]
  split_ifs
  · exact drop_suffix 1 s
  · exact suffix_rfl

section Number

variable (strtod : Bytes → Strtod)

/-- The value of a number text, by `strtod`. -/
def numberValue (text : Bytes) : Option Conf :=
  match strtod text with
  | .whole => some (.integer text)
  | .fraction => some (.number text)
  | _ => none

/-- The tests of `nxt_conf_json_parse_number` on the part before the exponent,
which ends at `m`. -/
def MantissaOk (start : Bytes) (dot : Option Bytes) (m : Bytes) : Prop :=
  ¬ (dot.isSome ∧ (dot.getD m).length - m.length ≤ 1) ∧
    ¬ ((skipMinus start).length - (dot.getD m).length > 1 ∧ start.head? = some 0x30)

variable {start : Bytes} {v : Conf}

theorem jsonParseNumber_eq_ok :
    jsonParseNumber strtod start = .ok (v, p) ↔
      ∃ dot m, numberScan none (skipMinus start) = (dot, m) ∧ MantissaOk start dot m ∧
        numberExponent m = some p ∧
        (start.take (start.length - p.length)).length ≤ confMaxNumberLen ∧
        numberValue strtod (start.take (start.length - p.length)) = some v := by
  rw [jsonParseNumber]
  rcases hscan : numberScan none (skipMinus start) with ⟨dot, m⟩
  dsimp only
  constructor
  · intro h
    refine ⟨dot, m, rfl, ?_⟩
    by_cases hfrac : dot.isSome ∧ (dot.getD m).length - m.length ≤ 1
    · rw [if_pos hfrac] at h
      cases h
    by_cases hzero : (skipMinus start).length - (dot.getD m).length > 1 ∧ start.head? = some 0x30
    · rw [if_neg hfrac, if_pos hzero] at h
      cases h
    rw [if_neg hfrac, if_neg hzero] at h
    cases hexp : numberExponent m with
    | none =>
      rw [hexp] at h
      cases h
    | some q => ?_
    rw [hexp] at h
    dsimp only at h
    by_cases hlong : (start.take (start.length - q.length)).length > confMaxNumberLen
    · rw [if_pos hlong] at h
      cases h
    rw [if_neg hlong] at h
    refine ⟨⟨hfrac, hzero⟩, ?_⟩
    cases hd : strtod (start.take (start.length - q.length)) with
    | outOfRange | unfinished =>
      rw [hd] at h
      cases h
    | whole | fraction =>
      rw [hd] at h
      cases h
      exact ⟨rfl, not_lt.mp hlong, by rw [numberValue, hd]⟩
  · rintro ⟨dot', m', heq, ⟨hfrac, hzero⟩, hexp, hlong, hval⟩
    cases heq
    rw [if_neg hfrac, if_neg hzero, hexp]
    dsimp only
    rw [if_neg (not_lt.mpr hlong)]
    rw [numberValue] at hval
    cases hd : strtod (start.take (start.length - p.length)) with
    | outOfRange | unfinished =>
      rw [hd] at hval
      cases hval
    | whole | fraction =>
      rw [hd] at hval
      cases hval
      rfl

/-- A number is a prefix of the text: what is left is a suffix. -/
theorem jsonParseNumber_suffix (h : jsonParseNumber strtod start = .ok (v, p)) : p <:+ start := by
  obtain ⟨dot, m, hscan, -, hexp, -⟩ := (jsonParseNumber_eq_ok strtod).mp h
  have hm : m <:+ skipMinus start := by
    have := numberScan_suffix (skipMinus start) none
    rwa [hscan] at this
  exact ((numberExponent_suffix hexp).trans hm).trans (skipMinus_suffix start)

/-- **A number does not depend on what ends it.** -/
theorem jsonParseNumber_append (hrest : Terminated rest) {w : Bytes} :
    jsonParseNumber strtod (w ++ rest) = .ok (v, rest) ↔
      jsonParseNumber strtod w = .ok (v, []) := by
  rw [jsonParseNumber_eq_ok, jsonParseNumber_eq_ok]
  have htext : (w ++ rest).take ((w ++ rest).length - rest.length) = w := by
    rw [length_append, Nat.add_sub_cancel, take_left]
  have htext' : w.take (w.length - ([] : Bytes).length) = w := by simp
  rw [htext, htext']
  have hscan := numberScan_append hrest (skipMinus w) none
  rw [map_none, ← skipMinus_append hrest] at hscan
  have hok : ∀ dot m, MantissaOk (w ++ rest) (dot.map (· ++ rest)) (m ++ rest) ↔
      MantissaOk w dot m := by
    intro dot m
    have hlen : ((dot.map (· ++ rest)).getD (m ++ rest)).length = (dot.getD m).length + rest.length := by
      cases dot <;> simp
    simp only [MantissaOk, hlen, skipMinus_append hrest, length_append, isSome_map,
      Nat.add_sub_add_right, head?_append_iff hrest (show endsNumber 0x30 = false by decide)]
  have hexp : ∀ m, numberExponent (m ++ rest) = some rest ↔ numberExponent m = some [] := by
    intro m
    rw [numberExponent_append hrest, map_eq_some_iff]
    constructor
    · rintro ⟨q, hq, heq⟩
      rw [hq, append_left_eq_self.mp heq]
    · intro hm
      exact ⟨[], hm, rfl⟩
  constructor
  · rintro ⟨dot, m, heq, hmant, he, hval⟩
    rw [hscan] at heq
    cases heq
    exact ⟨_, _, rfl, (hok _ _).mp hmant, (hexp _).mp he, hval⟩
  · rintro ⟨dot, m, heq, hmant, he, hval⟩
    rw [heq] at hscan
    exact ⟨_, _, hscan, (hok dot m).mpr hmant, (hexp m).mpr he, hval⟩

end Number

end FreeUnit
