/-
Byte ranges of a static file, `nxt_http_static_range`.

* `rangeNumber` — `nxt_http_static_range_number`, a number that saturates;
* `rangeAnswer`, `staticRange` — the answer to a Range field;
* `staticRange_iff` — the answer follows the grammar, unless the first position
  is outside of the file and the text behind it is malformed.
-/
import FreeUnit.StaticConditions

namespace FreeUnit.Static

open List

/-! ### The source -/

def digitValue (c : UInt8) : ℕ := (c - 0x30).toNat

def rangeDigits : ℕ → Bytes → ℕ × Bytes
  | value, [] => (value, [])
  | value, c :: p =>
    if isDigit c then
      if value > (offTMax - digitValue c) / 10 then (offTMax, (c :: p).dropWhile isDigit)
      else rangeDigits (value * 10 + digitValue c) p
    else (value, c :: p)

def rangeNumber : Bytes → Option ℕ × Bytes
  | [] => (none, [])
  | c :: p =>
    if isDigit c then
      let r := rangeDigits 0 (c :: p)
      (some r.1, r.2)
    else (none, c :: p)

/-- `NXT_HTTP_OK`, `NXT_HTTP_RANGE_NOT_SATISFIABLE`, and `NXT_HTTP_PARTIAL_CONTENT`
with its range. -/
inductive RangeAnswer where
  | full
  | notSatisfiable
  | part (first last : ℕ)
  deriving DecidableEq, Repr

/-- The answer to a range behind `bytes=`, without a comma. -/
def rangeSpec (p : Bytes) (size : ℕ) : RangeAnswer :=
  match p with
  | [] => .full
  | c :: rest =>
    if c = 0x2D then
      match rangeNumber rest with
      | (some suffix, []) =>
        if suffix = 0 ∨ size = 0 then .notSatisfiable
        else .part (if suffix < size then size - suffix else 0) (size - 1)
      | _ => .full
    else
      match rangeNumber p with
      | (some a, d :: rest) =>
        if d ≠ 0x2D then .full
        else if size ≤ a then .notSatisfiable
        else if rest = [] then .part a (size - 1)
        else
          match rangeNumber rest with
          | (some b, []) => if b < a then .full else .part a (if size ≤ b then size - 1 else b)
          | _ => .full
      | _ => .full

def rangeAnswer (value : Bytes) (size : ℕ) : RangeAnswer :=
  if value.length ≤ 6 ∨ strcasestrEq (value.take 6) (str "bytes=") = false then .full
  else if (0x2C : UInt8) ∈ value.drop 6 then .full
  else rangeSpec (value.drop 6) size

def ifRangeMatch (value etag : Bytes) (weak : Bool) (mtime : ℤ) (dateOk : Bool) : Bool :=
  if value.head? = some 0x22 ∨ (str "W/").isPrefixOf value then etagMatch value etag weak true
  else
    let date := timeParse value
    dateOk && !weak && date != -1 && date == mtime

def staticRange (fields : List HttpField) (etag : Bytes) (weak : Bool) (mtime : ℤ) (dateOk : Bool)
    (size : ℕ) : RangeAnswer :=
  match (values fields (str "Range")).getLast? with
  | none => .full
  | some range =>
    match (values fields (str "If-Range")).getLast? with
    | some v => if ifRangeMatch v etag weak mtime dateOk then rangeAnswer range size else .full
    | none => rangeAnswer range size

/-! ### The grammar -/

def decimal (ds : Bytes) : ℕ := ds.foldl (fun v c => v * 10 + digitValue c) 0

def Digits (ds : Bytes) : Prop := ds ≠ [] ∧ ∀ c ∈ ds, isDigit c = true

inductive ByteRange where
  | closed (first last : ℕ)
  | fromFirst (first : ℕ)
  | suffix (length : ℕ)

inductive RangeText : Bytes → ByteRange → Prop
  | closed {f l : Bytes} : Digits f → Digits l → decimal f ≤ decimal l →
      RangeText (f ++ 0x2D :: l) (.closed (decimal f) (decimal l))
  | fromFirst {f : Bytes} : Digits f → RangeText (f ++ [0x2D]) (.fromFirst (decimal f))
  | suffix {n : Bytes} : Digits n → RangeText (0x2D :: n) (.suffix (decimal n))

/-- `bytes=`, in any case. -/
def IsUnit (unit : Bytes) : Prop := strcasestrEq unit (str "bytes=") = true

/-- **The grammar** of the Range field, for a single range. -/
def Denotes (value : Bytes) (r : ByteRange) : Prop :=
  ∃ unit text, IsUnit unit ∧ value = unit ++ text ∧ RangeText text r

def ByteRange.answer (size : ℕ) : ByteRange → RangeAnswer
  | .closed first last => if first < size then .part first (min last (size - 1)) else .notSatisfiable
  | .fromFirst first => if first < size then .part first (size - 1) else .notSatisfiable
  | .suffix length =>
    if 0 < length ∧ 0 < size then .part (size - length) (size - 1) else .notSatisfiable

/-- The answer follows the grammar: a range gets what it asks for, and any other
value is ignored. -/
def Follows (value : Bytes) (size : ℕ) (answer : RangeAnswer) : Prop :=
  (∀ r, Denotes value r → answer = r.answer size) ∧ ((¬ ∃ r, Denotes value r) → answer = .full)

/-- The first position is outside of the file, and what stands behind the dash
is malformed. -/
def BadTail (value : Bytes) (size : ℕ) : Prop :=
  ∃ unit f rest, IsUnit unit ∧ value = unit ++ (f ++ 0x2D :: rest) ∧ Digits f ∧ size ≤ decimal f ∧
    rest ≠ [] ∧ (0x2C : UInt8) ∉ rest ∧ ¬ (Digits rest ∧ decimal f ≤ decimal rest)

/-! ### Numbers -/

theorem decimal_foldl_le (v : ℕ) (ds : Bytes) :
    v ≤ ds.foldl (fun v c => v * 10 + digitValue c) v := by
  induction ds generalizing v with
  | nil => exact le_rfl
  | cons c ds ih => ?_
  have := ih (v * 10 + digitValue c)
  rw [foldl_cons]
  omega

variable {ds rest text : Bytes} {size : ℕ}

/-- **The number saturates**, and all digits are taken. -/
theorem rangeDigits_eq (hds : ∀ c ∈ ds, isDigit c = true)
    (hrest : ∀ c ∈ rest.head?, isDigit c = false) {v : ℕ} (hv : v ≤ offTMax) :
    rangeDigits v (ds ++ rest) =
      (min offTMax (ds.foldl (fun v c => v * 10 + digitValue c) v), rest) := by
  induction ds generalizing v with
  | nil =>
    rw [nil_append, foldl_nil, min_eq_right hv]
    cases rest with
    | nil => rfl
    | cons c rest => ?_
    have hc : isDigit c = false := hrest c rfl
    rw [rangeDigits, hc, if_neg Bool.false_ne_true]
  | cons c ds ih => ?_
  have hc := hds c mem_cons_self
  have hds' : ∀ c ∈ ds, isDigit c = true := fun x hx => hds x (mem_cons_of_mem _ hx)
  have hnine : digitValue c ≤ 9 := by
    have key : ∀ c : UInt8, isDigit c = true → digitValue c ≤ 9 := by decide +kernel
    exact key c hc
  rw [cons_append, rangeDigits, if_pos hc, foldl_cons]
  by_cases hbig : v > (offTMax - digitValue c) / 10
  · -- the value does not fit, nor does any longer one
    rw [if_pos hbig]
    have hle := decimal_foldl_le (v * 10 + digitValue c) ds
    have hover : offTMax ≤ v * 10 + digitValue c := by
      have := Nat.lt_mul_of_div_lt hbig (by decide)
      omega
    have hdrop : (c :: (ds ++ rest)).dropWhile isDigit = rest := by
      rw [← cons_append, dropWhile_append_of_pos hds]
      cases rest with
      | nil => rfl
      | cons d rest => ?_
      have hd : isDigit d = false := hrest d rfl
      rw [dropWhile_cons_of_neg (by simp [hd])]
    rw [hdrop, min_eq_left (le_trans hover hle)]
  rw [if_neg hbig]
  have hfit : v * 10 + digitValue c ≤ offTMax := by
    have := Nat.mul_le_of_le_div 10 v (offTMax - digitValue c) (not_lt.mp hbig)
    have hmax : 9 ≤ offTMax := by decide
    omega
  exact ih hds' hfit

theorem rangeNumber_digits (hds : Digits ds)
    (hrest : ∀ c ∈ rest.head?, isDigit c = false) :
    rangeNumber (ds ++ rest) = (some (min offTMax (decimal ds)), rest) := by
  obtain ⟨hne, hall⟩ := hds
  have hdigits := rangeDigits_eq hall hrest (Nat.zero_le offTMax)
  cases ds with
  | nil => exact absurd rfl hne
  | cons c ds => ?_
  rw [cons_append] at hdigits ⊢
  rw [rangeNumber, if_pos (hall c mem_cons_self), hdigits]
  rfl

theorem rangeNumber_some {p : Bytes} {a : ℕ} (h : rangeNumber p = (some a, rest)) :
    ∃ ds, Digits ds ∧ p = ds ++ rest ∧ a = min offTMax (decimal ds) := by
  cases p with
  | nil => cases h
  | cons c p => ?_
  cases hc : isDigit c with
  | false =>
    rw [rangeNumber, hc, if_neg Bool.false_ne_true] at h
    cases h
  | true => ?_
  have hds : Digits ((c :: p).takeWhile isDigit) := by
    refine ⟨?_, fun x hx => mem_takeWhile_imp hx⟩
    rw [takeWhile_cons_of_pos hc]
    exact cons_ne_nil _ _
  have hrest : ∀ x ∈ ((c :: p).dropWhile isDigit).head?, isDigit x = false := by
    intro x hx
    have := head?_dropWhile_not isDigit (c :: p)
    rw [Option.mem_def.mp hx] at this
    simpa using this
  have heq := rangeNumber_digits hds hrest
  rw [takeWhile_append_dropWhile] at heq
  rw [h, Prod.mk.injEq, Option.some.injEq] at heq
  exact ⟨_, hds, by rw [heq.2, takeWhile_append_dropWhile], heq.1⟩

/-! ### One range -/

theorem not_digit_dash {rest : Bytes} : ∀ c ∈ ((0x2D : UInt8) :: rest).head?, isDigit c = false := by
  intro c hc
  obtain rfl : 0x2D = c := by simpa using hc
  rfl

theorem digit_ne {c : UInt8} (hds : Digits ds) (hc : isDigit c = false) : c ∉ ds :=
  fun h => absurd (hds.2 c h) (by simp [hc])

theorem rangeNumber_all (hds : Digits ds) :
    rangeNumber ds = (some (min offTMax (decimal ds)), []) := by
  have hnone : ∀ c ∈ ([] : Bytes).head?, isDigit c = false := fun c hc => nomatch hc
  have h := rangeNumber_digits hds hnone
  rwa [append_nil] at h

theorem head_ne_dash {f : Bytes} (hf : Digits f) (rest : Bytes) :
    ∃ c p, f ++ rest = c :: p ∧ c ≠ 0x2D := by
  obtain ⟨hne, hall⟩ := hf
  cases f with
  | nil => exact absurd rfl hne
  | cons c f => ?_
  refine ⟨c, f ++ rest, rfl, fun h => ?_⟩
  have hc := hall c mem_cons_self
  rw [h] at hc
  exact absurd hc (by decide)

theorem rangeSpec_first {f : Bytes} (hf : Digits f) (hsize : size ≤ offTMax) :
    rangeSpec (f ++ 0x2D :: rest) size = if size ≤ decimal f then .notSatisfiable
      else if rest = [] then .part (decimal f) (size - 1)
      else
        match rangeNumber rest with
        | (some b, []) =>
          if b < decimal f then .full else .part (decimal f) (if size ≤ b then size - 1 else b)
        | _ => .full := by
  obtain ⟨c, p, htext, hc⟩ := head_ne_dash hf (0x2D :: rest)
  have hnumber := rangeNumber_digits hf (@not_digit_dash rest)
  rw [htext] at hnumber ⊢
  rw [rangeSpec, if_neg hc, hnumber]
  dsimp only
  rw [if_neg (not_not.mpr rfl)]
  by_cases hbig : size ≤ decimal f
  · rw [if_pos hbig, if_pos (le_min hsize hbig)]
  have hexact : min offTMax (decimal f) = decimal f := min_eq_right (by omega)
  rw [hexact, if_neg hbig]

/-- **A range gets what it asks for.** -/
theorem rangeSpec_of_text {r : ByteRange} (h : RangeText text r)
    (hsize : size ≤ offTMax) : rangeSpec text size = r.answer size := by
  cases h with
  | @closed f l hf hl hle =>
    rw [rangeSpec_first hf hsize, if_neg hl.1, rangeNumber_all hl, ByteRange.answer]
    dsimp only
    by_cases hbig : size ≤ decimal f
    · rw [if_pos hbig, if_neg (not_lt.mpr hbig)]
    rw [if_neg hbig, if_pos (not_le.mp hbig), if_neg (by omega)]
    congr 1
    split <;> omega
  | @fromFirst f hf =>
    rw [rangeSpec_first hf hsize, if_pos rfl, ByteRange.answer]
    by_cases hbig : size ≤ decimal f
    · rw [if_pos hbig, if_neg (not_lt.mpr hbig)]
    · rw [if_neg hbig, if_pos (not_le.mp hbig)]
  | @suffix n hn => ?_
  rw [rangeSpec, if_pos rfl, rangeNumber_all hn, ByteRange.answer]
  dsimp only
  have hmax : 0 < offTMax := by decide
  by_cases hpos : 0 < decimal n ∧ 0 < size
  · rw [if_neg (by omega), if_pos hpos]
    congr 1
    split <;> omega
  · rw [if_pos (by omega), if_neg hpos]

/-- The text of a range whose first position is outside of the file, with a
malformed rest. -/
def BadText (text : Bytes) (size : ℕ) : Prop :=
  ∃ f rest, text = f ++ 0x2D :: rest ∧ Digits f ∧ size ≤ decimal f ∧ rest ≠ [] ∧
    ¬ (Digits rest ∧ decimal f ≤ decimal rest)

/-- A text that is not ignored is a range, or has a bad tail. -/
theorem text_of_rangeSpec (hsize : size ≤ offTMax)
    (h : rangeSpec text size ≠ .full) : (∃ r, RangeText text r) ∨ BadText text size := by
  cases text with
  | nil => exact absurd rfl h
  | cons c rest => ?_
  by_cases hc : c = 0x2D
  · subst hc
    rw [rangeSpec, if_pos rfl] at h
    split at h
    · rename_i n hn
      obtain ⟨ds, hds, hrest, -⟩ := rangeNumber_some hn
      rw [append_nil] at hrest
      rw [hrest]
      exact .inl ⟨_, .suffix hds⟩
    · exact absurd rfl h
  have hdash : ∃ f tail, Digits f ∧ c :: rest = f ++ 0x2D :: tail := by
    rw [rangeSpec, if_neg hc] at h
    split at h
    · rename_i a d tail hnumber
      obtain ⟨f, hf, htext, -⟩ := rangeNumber_some hnumber
      by_cases hd : d = 0x2D
      · exact ⟨f, tail, hf, hd ▸ htext⟩
      rw [if_pos hd] at h
      exact absurd rfl h
    · exact absurd rfl h
  obtain ⟨f, tail, hf, htext⟩ := hdash
  rw [htext] at h ⊢
  rw [rangeSpec_first hf hsize] at h
  by_cases htail : tail = []
  · rw [htail]
    exact .inl ⟨_, .fromFirst hf⟩
  by_cases hgood : Digits tail ∧ decimal f ≤ decimal tail
  · exact .inl ⟨_, .closed hf hgood.1 hgood.2⟩
  by_cases hbig : size ≤ decimal f
  · exact .inr ⟨f, tail, rfl, hf, hbig, htail, hgood⟩
  -- inside of the file, the rest is looked at
  rw [if_neg hbig, if_neg htail] at h
  split at h
  · rename_i b hb
    obtain ⟨ds, hds, hrest, hvalue⟩ := rangeNumber_some hb
    rw [append_nil] at hrest
    subst hrest
    refine absurd (if_pos ?_) h
    have hlt : decimal tail < decimal f := not_le.mp fun hle => hgood ⟨hds, hle⟩
    omega
  · exact absurd rfl h

theorem dash_inj {f f' a b : Bytes} (hf : Digits f) (hf' : Digits f')
    (h : f ++ 0x2D :: a = f' ++ 0x2D :: b) : f = f' ∧ a = b := by
  have htake : ∀ {f a : Bytes}, Digits f → (f ++ 0x2D :: a).takeWhile isDigit = f := by
    intro f a hf
    rw [takeWhile_append_of_pos hf.2]
    exact append_nil f
  have hff : f = f' := by rw [← htake hf (a := a), h, htake hf']
  subst hff
  exact ⟨rfl, (cons.inj (append_cancel_left h)).2⟩

/-- A bad tail is no range, but it is answered as one. -/
theorem rangeSpec_badText (hsize : size ≤ offTMax)
    (h : BadText text size) : rangeSpec text size = .notSatisfiable ∧ ¬ ∃ r, RangeText text r := by
  obtain ⟨f, rest, rfl, hf, hbig, hrest, hbad⟩ := h
  refine ⟨by rw [rangeSpec_first hf hsize, if_pos hbig], ?_⟩
  rintro ⟨r, hr⟩
  generalize htext : f ++ 0x2D :: rest = text at hr
  cases hr with
  | closed hf' hl hle =>
    obtain ⟨rfl, rfl⟩ := dash_inj hf hf' htext
    exact hbad ⟨hl, hle⟩
  | fromFirst hf' =>
    obtain ⟨-, hnil⟩ := dash_inj hf hf' htext
    exact hrest hnil
  | suffix hn => ?_
  obtain ⟨c, p, hcons, hc⟩ := head_ne_dash hf (0x2D :: rest)
  rw [hcons] at htext
  exact hc (cons.inj htext).1

/-! ### The whole value -/

theorem length_unit {unit : Bytes} (h : IsUnit unit) : unit.length = 6 := by
  have heq : unit.map lowcase = (str "bytes=").map lowcase := beq_iff_eq.mp h
  have hlen := congrArg length heq
  rwa [length_map] at hlen

theorem RangeText.no_comma {r : ByteRange} (h : RangeText text r) :
    (0x2C : UInt8) ∉ text ∧ text ≠ [] := by
  have hcomma : ∀ {ds : Bytes}, Digits ds → (0x2C : UInt8) ∉ ds := fun hds => digit_ne hds rfl
  cases h with
  | closed hf hl _ => simp [hcomma hf, hcomma hl]
  | fromFirst hf => simp [hcomma hf]
  | suffix hn => simp [hcomma hn]

theorem rangeAnswer_unit {unit : Bytes} (hunit : IsUnit unit) (htext : text ≠ [])
    (hcomma : (0x2C : UInt8) ∉ text) (size : ℕ) :
    rangeAnswer (unit ++ text) size = rangeSpec text size := by
  have hlen := length_unit hunit
  have hpos := length_pos_iff.mpr htext
  have htake : (unit ++ text).take 6 = unit := take_left' hlen
  have hdrop : (unit ++ text).drop 6 = text := drop_left' hlen
  have hhead : ¬ ((unit ++ text).length ≤ 6 ∨
      strcasestrEq ((unit ++ text).take 6) (str "bytes=") = false) := by
    rw [htake, length_append, show strcasestrEq unit (str "bytes=") = true from hunit]
    simp
    omega
  rw [rangeAnswer, if_neg hhead, hdrop, if_neg hcomma]

/-- A value that is not ignored has the unit, and no comma. -/
theorem unit_of_rangeAnswer {value : Bytes} (h : rangeAnswer value size ≠ .full) :
    ∃ unit text, IsUnit unit ∧ value = unit ++ text ∧ (0x2C : UInt8) ∉ text ∧
      rangeSpec text size ≠ .full := by
  unfold rangeAnswer at h
  split at h
  · exact absurd rfl h
  rename_i hunit
  split at h
  · exact absurd rfl h
  rename_i hcomma
  rw [not_or, Bool.not_eq_false] at hunit
  exact ⟨value.take 6, value.drop 6, hunit.2, (take_append_drop 6 value).symm, hcomma, h⟩

/-- **The answer to a value follows the grammar** unless it has a bad tail. -/
theorem rangeAnswer_follows_iff (value : Bytes) (hsize : size ≤ offTMax) :
    Follows value size (rangeAnswer value size) ↔ ¬ BadTail value size := by
  have hrange : ∀ r, Denotes value r → rangeAnswer value size = r.answer size := by
    rintro r ⟨unit, text, hunit, rfl, htext⟩
    obtain ⟨hcomma, hne⟩ := htext.no_comma
    rw [rangeAnswer_unit hunit hne hcomma, rangeSpec_of_text htext hsize]
  constructor
  · rintro ⟨-, hfull⟩ ⟨unit, f, rest, hunit, rfl, hf, hbig, hrest, hcomma, hbad⟩
    have hne : f ++ 0x2D :: rest ≠ [] := by simp
    have hcomma' : (0x2C : UInt8) ∉ f ++ 0x2D :: rest := by
      have hf' : (0x2C : UInt8) ∉ f := digit_ne hf rfl
      simp [hf', hcomma]
    obtain ⟨hanswer, hnone⟩ := rangeSpec_badText hsize ⟨f, rest, rfl, hf, hbig, hrest, hbad⟩
    rw [rangeAnswer_unit hunit hne hcomma', hanswer] at hfull
    refine nomatch hfull ?_
    rintro ⟨r, unit', text, hunit', heq, htext⟩
    have hsplit := append_inj heq ((length_unit hunit).trans (length_unit hunit').symm)
    rw [← hsplit.2] at htext
    exact hnone ⟨r, htext⟩
  · intro hgood
    refine ⟨hrange, fun hnone => ?_⟩
    by_contra hfull
    obtain ⟨unit, text, hunit, rfl, hcomma, hspec⟩ := unit_of_rangeAnswer hfull
    rcases text_of_rangeSpec hsize hspec with ⟨r, hr⟩ | ⟨f, rest, rfl, hf, hbig, hrest, hbad⟩
    · exact hnone ⟨r, unit, text, hunit, rfl, hr⟩
    refine hgood ⟨unit, f, rest, hunit, rfl, hf, hbig, hrest, fun h => hcomma ?_, hbad⟩
    exact mem_append_right _ (mem_cons_of_mem _ h)

/-- **The answer to a Range field** follows the grammar unless the first position
is outside of the file and what stands behind the dash is malformed. -/
theorem staticRange_iff {fields : List HttpField} {value : Bytes}
    (hrange : (values fields (str "Range")).getLast? = some value)
    (hif : values fields (str "If-Range") = []) (etag : Bytes) (weak : Bool) (mtime : ℤ)
    (dateOk : Bool) {size : ℕ} (hsize : size ≤ offTMax) :
    Follows value size (staticRange fields etag weak mtime dateOk size) ↔ ¬ BadTail value size := by
  rw [staticRange, hrange, hif]
  exact rangeAnswer_follows_iff value hsize

/-- A suffix with more digits than a number has. -/
theorem staticRange_long_suffix :
    Follows (str "bytes=-99999999999999999999") 10
      (staticRange [.ofLine (str "range") (str "bytes=-99999999999999999999")] [] false 0 true 10) := by
  refine (staticRange_iff rfl rfl [] false 0 true (by decide)).mpr ?_
  rintro ⟨unit, f, rest, hunit, heq, hf, -⟩
  change str "bytes=" ++ str "-99999999999999999999" = unit ++ (f ++ 0x2D :: rest) at heq
  have hsplit := append_inj heq (length_unit hunit).symm
  obtain ⟨c, p, hcons, hc⟩ := head_ne_dash hf (0x2D :: rest)
  rw [hcons] at hsplit
  exact hc (cons.inj hsplit.2).1.symm

/-- The same malformed value is ignored or refused, by the size of the file. -/
theorem staticRange_bad_tail :
    staticRange [.ofLine (str "Range") (str "bytes=5-x")] [] false 0 true 5 = .notSatisfiable ∧
      staticRange [.ofLine (str "Range") (str "bytes=5-x")] [] false 0 true 6 = .full ∧
      ¬ Follows (str "bytes=5-x") 5
        (staticRange [.ofLine (str "Range") (str "bytes=5-x")] [] false 0 true 5) := by
  have h5 : staticRange [.ofLine (str "Range") (str "bytes=5-x")] [] false 0 true 5 =
      .notSatisfiable := by decide +kernel
  refine ⟨h5, by decide +kernel, fun h => ?_⟩
  have hbad : BadTail (str "bytes=5-x") 5 := by
    refine ⟨str "bytes=", str "5", str "x", rfl, rfl, ⟨by decide, by decide +kernel⟩, by decide,
      by decide, by decide, fun hdigits => ?_⟩
    exact absurd (hdigits.1.2 0x78 mem_cons_self) (by decide)
  exact (rangeAnswer_follows_iff _ (by decide)).mp h hbad

end FreeUnit.Static
