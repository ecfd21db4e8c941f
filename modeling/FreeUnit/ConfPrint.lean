/-
The JSON printer of the configuration (`nxt_conf_json_print`).

`pretty` is the level of indentation, `none` for the compact form.  The flag
`more_space` of the source, which asks for an empty line before the next
member, is passed along and returned.

* `jsonEscape` — the bytes of a string between its quotes;
* `jsonPrint` — a value, with the flag afterwards;
* `jsonPrint_length_le` — the text is no longer than `nxt_conf_json_length`
  says.
-/
import FreeUnit.ConfTree

namespace FreeUnit

open List

/-- `'0' + n`, or `'A' + n - 10` -/
def upperHex (n : UInt8) : UInt8 := if n < 10 then 0x30 + n else 0x41 + (n - 10)

/-- One byte of `nxt_conf_json_escape`. -/
def escapeByte (ch : UInt8) : Bytes :=
  if ch > 0x1F then
    if ch = 0x5C ∨ ch = 0x22 then [0x5C, ch] else [ch]
  else if ch = 0x0A then [0x5C, 0x6E]     -- \n
  else if ch = 0x0D then [0x5C, 0x72]     -- \r
  else if ch = 0x09 then [0x5C, 0x74]     -- \t
  else if ch = 0x08 then [0x5C, 0x62]     -- \b
  else if ch = 0x0C then [0x5C, 0x66]     -- \f
  else [0x5C, 0x75, 0x30, 0x30, (0x30 : UInt8) + (ch >>> 4), upperHex (ch &&& 0xF)]

def jsonEscape (s : Bytes) : Bytes := s.flatMap escapeByte

def jsonPrintString (s : Bytes) : Bytes := 0x22 :: jsonEscape s ++ [0x22]

def jsonNewline : Bytes := [0x0D, 0x0A]

/-- `nxt_conf_json_newline` where the form is indented. -/
def prettyNewline : Option ℕ → Bytes
  | none => []
  | some _ => jsonNewline

/-- `nxt_conf_json_indentation` where the form is indented. -/
def prettyIndent : Option ℕ → Bytes
  | none => []
  | some level => List.replicate level 0x09

/-- The flag after the closing bracket or brace of a non-empty value. -/
def spaceAfter (pretty : Option ℕ) (more : Bool) : Bool := if pretty.isSome then true else more

mutual

def jsonPrint (pretty : Option ℕ) (more : Bool) : Conf → Bytes × Bool
  | .null => (str "null", more)
  | .boolean b => (if b then str "true" else str "false", more)
  | .integer number => (number, more)
  | .number number => (number, more)
  | .string s => (jsonPrintString s, more)
  | .array [] => ([0x5B, 0x5D], more)
  | .array (e :: es) =>
    let inner := pretty.map (· + 1)
    let (first, more) := jsonPrint inner more e
    let (rest, more) := printElements inner more es
    (0x5B :: (prettyNewline inner ++ prettyIndent inner ++ first ++ rest ++
      prettyNewline pretty ++ prettyIndent pretty ++ [0x5D]), spaceAfter pretty more)
  | .object [] => ([0x7B, 0x7D], more)
  | .object (m :: ms) =>
    let inner := pretty.map (· + 1)
    let (text, more) := printMembers inner more (m :: ms)
    (0x7B :: (prettyNewline inner ++ text ++ prettyNewline pretty ++ prettyIndent pretty ++
      [0x7D]), spaceAfter pretty more)

/-- The elements behind the first one, each after its comma. -/
def printElements (pretty : Option ℕ) (more : Bool) : List Conf → Bytes × Bool
  | [] => ([], more)
  | e :: es =>
    let (text, more) := jsonPrint pretty (if pretty.isSome then false else more) e
    let (rest, more) := printElements pretty more es
    (0x2C :: (prettyNewline pretty ++ prettyIndent pretty ++ text ++ rest), more)

def printMembers (pretty : Option ℕ) (more : Bool) : List (Bytes × Conf) → Bytes × Bool
  | [] => ([], more)
  | (name, value) :: ms =>
    let (text, more) := jsonPrint pretty more value
    let head := prettyIndent pretty ++ jsonPrintString name ++ 0x3A ::
      ((if pretty.isSome then [0x20] else []) ++ text)
    match ms with
    | [] => (head, more)
    | next :: ms =>
      -- an empty line stands before the member that follows a non-empty value
      let gap := if pretty.isSome ∧ more then jsonNewline else []
      let (rest, more) :=
        printMembers pretty (if pretty.isSome then false else more) (next :: ms)
      (head ++ 0x2C :: (prettyNewline pretty ++ gap ++ rest), more)

end

/-- The text of a value, compact or indented from the first level on. -/
def confJsonPrint (indented : Bool) (value : Conf) : Bytes :=
  (jsonPrint (if indented then some 0 else none) false value).1

/-! ### The length of the text -/

/-- `SIZE_MAX` -/
def sizeMax : ℕ := 2 ^ 64 - 1

/-- `nxt_conf_json_length_add` -/
def jsonLengthAdd (len n : ℕ) : ℕ := min (len + n) sizeMax

/-- What `nxt_conf_json_escape_length` adds for one byte. -/
def escapeSurplus (ch : UInt8) : ℕ :=
  if ch = 0x5C ∨ ch = 0x22 then 1
  else if ch ≤ 0x1F then
    if ch = 0x0A ∨ ch = 0x0D ∨ ch = 0x09 ∨ ch = 0x08 ∨ ch = 0x0C then 1 else 5
  else 0

def jsonEscapeLength (s : Bytes) : ℕ :=
  s.foldl (fun len ch => jsonLengthAdd len (escapeSurplus ch)) s.length

def jsonStringLength (s : Bytes) : ℕ := jsonLengthAdd 2 (jsonEscapeLength s)

/-- The addition of `pretty->level + n` where the form is indented. -/
def prettyAdd (pretty : Option ℕ) (n len : ℕ) : ℕ :=
  pretty.elim len fun level => jsonLengthAdd len (level + n)

mutual

/-- `nxt_conf_json_length` -/
def jsonLength (pretty : Option ℕ) : Conf → ℕ
  | .null => 4
  | .boolean b => if b then 4 else 5
  | .integer number => number.length
  | .number number => number.length
  | .string s => jsonStringLength s
  | .array es =>
    let len := elementsLength (pretty.map (· + 1)) 2 es
    jsonLengthAdd (if es.isEmpty then len else prettyAdd pretty 2 len) es.length
  | .object ms => prettyAdd pretty 2 (membersLength (pretty.map (· + 1)) 2 ms)

def elementsLength (pretty : Option ℕ) : ℕ → List Conf → ℕ
  | len, [] => len
  | len, e :: es =>
    elementsLength pretty (prettyAdd pretty 2 (jsonLengthAdd len (jsonLength pretty e))) es

def membersLength (pretty : Option ℕ) : ℕ → List (Bytes × Conf) → ℕ
  | len, [] => len
  | len, (name, value) :: ms =>
    let len := jsonLengthAdd (jsonLengthAdd len (jsonStringLength name)) (jsonLength pretty value)
    membersLength pretty (prettyAdd pretty 5 (jsonLengthAdd len 2)) ms

end

/-- `k` bytes, counted as `len` in a `size_t`. -/
def Covers (len k : ℕ) : Prop := min k sizeMax ≤ len

variable {len n j k : ℕ}

theorem Covers.add (h : Covers len j) (h' : Covers n k) : Covers (jsonLengthAdd len n) (j + k) := by
  unfold Covers jsonLengthAdd at *
  omega

theorem Covers.mono (h : Covers len j) (hk : k ≤ j) : Covers len k := by
  unfold Covers at *
  omega

theorem covers_two : Covers 2 2 := Nat.min_le_left _ _

theorem Covers.pretty {pretty : Option ℕ} (h : Covers len j) (hk : k ≤ pretty.elim 0 (· + n)) :
    Covers (prettyAdd pretty n len) (j + k) := by
  cases pretty with
  | none => rwa [Nat.le_zero.mp hk]
  | some level => exact h.add (Nat.le_trans (Nat.min_le_left _ _) hk)

theorem escapeByte_length : ∀ ch : UInt8, (escapeByte ch).length = escapeSurplus ch + 1 := by
  decide +kernel

theorem covers_escape : ∀ (s : Bytes) {len k : ℕ}, Covers len (k + s.length) →
    Covers (s.foldl (fun len ch => jsonLengthAdd len (escapeSurplus ch)) len)
      (k + (jsonEscape s).length)
  | [], _, _, h => h
  | ch :: s, len, k, h => by
    rw [jsonEscape, flatMap_cons, length_append, escapeByte_length, ← Nat.add_assoc]
    refine covers_escape s ?_
    have hadd : Covers _ (k + (ch :: s).length + escapeSurplus ch) := h.add (Nat.min_le_left _ _)
    rwa [length_cons, show k + (s.length + 1) + escapeSurplus ch =
      k + (escapeSurplus ch + 1) + s.length by omega] at hadd

theorem covers_string (s : Bytes) : Covers (jsonStringLength s) (jsonPrintString s).length := by
  have hs : Covers (jsonEscapeLength s) (0 + (jsonEscape s).length) :=
    covers_escape s (by rw [Nat.zero_add]; exact Nat.min_le_left _ _)
  have := covers_two.add hs
  rwa [show 2 + (0 + (jsonEscape s).length) = (jsonPrintString s).length by
    simp [jsonPrintString]; omega] at this

theorem pretty_length (pretty : Option ℕ) :
    (prettyNewline pretty).length + (prettyIndent pretty).length = pretty.elim 0 (· + 2) := by
  cases pretty <;> simp [prettyNewline, prettyIndent, jsonNewline, Nat.add_comm]

theorem Covers.commas {pretty : Option ℕ} (h : Covers (len + n) j) :
    Covers (jsonLengthAdd (prettyAdd pretty 2 len) (n + 1))
      (j + ((prettyNewline pretty).length + (prettyIndent pretty).length)) := by
  rw [pretty_length]
  cases pretty <;> simp only [Covers, prettyAdd, jsonLengthAdd, Option.elim] at * <;> omega

/-- What the indented form adds to a member, the empty line included. -/
theorem member_length_le (pretty : Option ℕ) (more : Bool) :
    (prettyIndent pretty).length + (if pretty.isSome then [(0x20 : UInt8)] else []).length +
      ((prettyNewline pretty).length +
        (if pretty.isSome ∧ more then jsonNewline else []).length) ≤ pretty.elim 0 (· + 5) := by
  cases pretty <;> cases more <;> simp [prettyNewline, prettyIndent, jsonNewline]

mutual

theorem covers_print (pretty : Option ℕ) (more : Bool) :
    ∀ v : Conf, Covers (jsonLength pretty v) (jsonPrint pretty more v).1.length
  | .null => by simp [Covers, jsonPrint, jsonLength, str]
  | .boolean b => by cases b <;> simp [Covers, jsonPrint, jsonLength, str]
  | .integer _ | .number _ => Nat.min_le_left _ _
  | .string s => covers_string s
  | .array [] => Nat.le_refl 2
  | .array (e :: es) => by
    have hfirst := (covers_two.add (covers_print (pretty.map (· + 1)) more e)).pretty
      (pretty_length (pretty.map (· + 1))).le
    have hall := covers_elements (pretty.map (· + 1)) es
      (jsonPrint (pretty.map (· + 1)) more e).2 hfirst
    simp only [jsonPrint, jsonLength, elementsLength, length_cons, length_append]
    exact hall.commas.mono (by simp; omega)
  | .object [] => by
    cases pretty <;> simp [jsonPrint, jsonLength, membersLength, prettyAdd, Covers, jsonLengthAdd]
  | .object (m :: ms) => by
    have hall := (covers_members (pretty.map (· + 1)) (m :: ms) more (by simp) covers_two).pretty
      (pretty_length pretty).le
    simp only [jsonPrint, jsonLength, length_cons, length_append, length_nil]
    refine hall.mono (by omega)

theorem covers_elements (pretty : Option ℕ) : ∀ (es : List Conf) (more : Bool) {len k : ℕ},
    Covers len k →
      Covers (elementsLength pretty len es + es.length) (k + (printElements pretty more es).1.length)
  | [], _, _, _, h => h
  | e :: es, more, len, k, h => by
    have hfirst := (h.add (covers_print pretty (if pretty.isSome then false else more) e)).pretty
      (pretty_length pretty).le
    have hrest := covers_elements pretty es
      (jsonPrint pretty (if pretty.isSome then false else more) e).2 hfirst
    simp only [printElements, elementsLength, length_cons, length_append, Covers] at *
    omega

theorem covers_members (pretty : Option ℕ) : ∀ (ms : List (Bytes × Conf)) (more : Bool)
    {len k : ℕ}, ms ≠ [] → Covers len k → Covers (membersLength pretty len ms)
      (k + (prettyNewline pretty).length + (printMembers pretty more ms).1.length)
  | [], _, _, _, hne, _ => absurd rfl hne
  | (name, value) :: ms, more, len, k, _, h => by
    have hhead := (((h.add (covers_string name)).add (covers_print pretty more value)).add
      covers_two).pretty (member_length_le pretty (jsonPrint pretty more value).2)
    cases ms with
    | nil =>
      simp only [printMembers, membersLength, length_append, length_cons]
      exact hhead.mono (by omega)
    | cons next ms => ?_
    have hrest := covers_members pretty (next :: ms) (if pretty.isSome then false else
      (jsonPrint pretty more value).2) (cons_ne_nil _ _) hhead
    simp only [printMembers, membersLength, length_append, length_cons] at hrest ⊢
    exact hrest.mono (by omega)

end

/-- **The printed text fits.** -/
theorem jsonPrint_length_le (pretty : Option ℕ) (more : Bool) (v : Conf)
    (hfits : jsonLength pretty v < sizeMax) :
    (jsonPrint pretty more v).1.length ≤ jsonLength pretty v := by
  have h : min _ sizeMax ≤ _ := covers_print pretty more v
  omega

/-- An indented object with a control byte in a string. -/
theorem jsonPrint_length_object :
    let v := Conf.object [(str "a", .array [.null, .string [0x01]])]
    jsonLength (some 0) v < sizeMax ∧
      (jsonPrint (some 0) false v).1.length ≤ jsonLength (some 0) v :=
  have hfits : jsonLength (some 0) (.object [(str "a", .array [.null, .string [0x01]])])
      < sizeMax := by decide
  ⟨hfits, jsonPrint_length_le (some 0) false _ hfits⟩

end FreeUnit
