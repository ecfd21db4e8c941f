/-
Conditional requests for a static file, `nxt_http_static_preconditions`.

* `timeParse` — `nxt_time_parse`, a date in one of the three formats;
* `etagMatch` — `nxt_http_static_etag_match`, the scan of one field line;
* `staticPreconditions_iff` — the answer is that of the rules, unless a repeated
  date field is taken by its last line.
-/
import FreeUnit.FieldTable

namespace FreeUnit.Static

open List

/-- `NXT_HTTP_OK`, `NXT_HTTP_NOT_MODIFIED` and `NXT_HTTP_PRECONDITION_FAILED` -/
def ok : HttpStatus := 200
def notModified : HttpStatus := 304
def preconditionFailed : HttpStatus := 412

/-! ### Dates -/

/-- `RFC822`, `RFC850` and `ISOC` -/
inductive TimeFormat where
  | rfc822
  | rfc850
  | isoc
  deriving DecidableEq

/-- The byte `p[k]`; all reads are inside the text after the tests of its
length. -/
def byteAt (p : Bytes) (k : ℕ) : UInt8 := p.getD k 0

def dayName : Bytes → TimeFormat × Bytes
  | [] => (.rfc822, [])
  | c :: p =>
    -- ',' and ' '
    if c = 0x2C then (.rfc822, p) else if c = 0x20 then (.isoc, p) else dayName p

def monthOf (p : Bytes) : Option ℕ :=
  let c := byteAt p 0
  if c = 0x4A then some (if byteAt p 1 = 0x61 then 0 else if byteAt p 2 = 0x6E then 5 else 6)
  else if c = 0x46 then some 1
  else if c = 0x4D then some (if byteAt p 2 = 0x72 then 2 else 4)
  else if c = 0x41 then some (if byteAt p 1 = 0x70 then 3 else 7)
  else if c = 0x53 then some 8
  else if c = 0x4F then some 9
  else if c = 0x4E then some 10
  else if c = 0x44 then some 11
  else none

/-- A number of `n` digits, with the rest of the text. -/
def number (p : Bytes) (n : ℕ) : Option (ℕ × Bytes) := (intParse (p.take n)).map fun v => (v, p.drop n)

def positive (p : Bytes) (n : ℕ) : Option (ℕ × Bytes) := (number p n).filter fun r => 0 < r.1

/-- One byte that has to be `c`. -/
def expect (p : Bytes) (c : UInt8) : Option Bytes := if byteAt p 0 = c then some (p.drop 1) else none

def dayOf (fmt : TimeFormat) (p : Bytes) : Option (TimeFormat × ℕ × Bytes) :=
  if fmt = .isoc then some (fmt, 0, p)
  else do
    let (day, p) ← positive p 2
    if byteAt p 0 = 0x20 then if p.length < 18 then none else some (fmt, day, p.drop 1)
    else if byteAt p 0 = 0x2D then some (.rfc850, day, p.drop 1)
    else none

/-- Year and day behind the month, as far as they stand there. -/
def yearOf (fmt : TimeFormat) (day : ℕ) (p : Bytes) : Option (ℕ × ℕ × Bytes) :=
  match fmt with
  | .rfc822 => do
    let p ← expect p 0x20
    let (yr, p) ← positive p 4
    some (yr, day, p)
  | .rfc850 => do
    let p ← expect p 0x2D
    let (yr, p) ← positive p 2
    some (yr + (if yr < 70 then 2000 else 1900), day, p)
  | .isoc => do
    let p ← expect p 0x20
    let (p, n) := if byteAt p 0 ≠ 0x20 then (p, if byteAt p 1 = 0x20 then 1 else 2) else (p.drop 1, 1)
    let (day, p) ← positive p n
    if p.length < 14 then none else some (0, day, p)

/-- `mday` -/
def monthDays (month : ℕ) : ℕ := [31, 28, 31, 30, 31, 30, 31, 31, 30, 31, 30, 31].getD month 0

/-- The range of a `uint64_t`. -/
def u64 : ℕ := 2 ^ 64

/-- Days since the epoch, by Gauss' formula, on unsigned numbers. -/
def gaussDays (year month day : ℕ) : ℕ :=
  let (month, year) := if month ≤ 1 then (month + 11, (year + u64 - 1) % u64) else (month - 1, year)
  (365 * year + year / 4 + u64 - year / 100 + year / 400 + 367 * month / 12 + u64 - 30 + day + u64 - 1
    + u64 - 719527 + 31 + 28) % u64

/-- The number as a signed `nxt_time_t`. -/
def toTime (s : ℕ) : ℤ := if s < 2 ^ 63 then s else (s : ℤ) - 2 ^ 64

/-- The numbers of a date that `nxt_time_parse` accepts, as seconds. -/
def timeOf (s : Bytes) : Option ℤ := do
  let (fmt, p) := dayName s
  let p := p.dropWhile (· == 0x20)
  if p.length < 18 then none
  else
    let (fmt, day, p) ← dayOf fmt p
    let month ← monthOf p
    let (yr, day, p) ← yearOf fmt day (p.drop 3)
    let p ← expect p 0x20
    let (hour, p) ← number p 2
    let p ← expect p 0x3A
    let (min, p) ← number p 2
    let p ← expect p 0x3A
    let (sec, p) ← number p 2
    let yr ←
      if fmt = .isoc then do
        let p ← expect p 0x20
        let (yr, _) ← number p 4
        some yr
      else some yr
    if 23 < hour ∨ 59 < min ∨ 59 < sec then none
    else if day = 29 ∧ month = 1 then
      if yr % 4 ≠ 0 ∨ (yr % 100 = 0 ∧ yr % 400 ≠ 0) then none
      else some (toTime ((gaussDays yr month day * 86400 + hour * 3600 + min * 60 + sec) % u64))
    else if monthDays month < day then none
    else some (toTime ((gaussDays yr month day * 86400 + hour * 3600 + min * 60 + sec) % u64))

def timeParse (s : Bytes) : ℤ := (timeOf s).getD (-1)

example : timeParse (str "Sun, 06 Nov 1994 08:49:37 GMT") = 784111777 := by decide
example : timeParse (str "Sunday, 06-Nov-94 08:49:37 GMT") = 784111777 := by decide
example : timeParse (str "Sun Nov  6 08:49:37 1994") = 784111777 := by decide

/-! ### Entity tags -/

def isOws (c : UInt8) : Bool := c == 0x20 || c == 0x09

def isListSpace (c : UInt8) : Bool := isOws c || c == 0x2C

/-- The loop over a list; every round takes at least one byte. -/
def etagList (etag : Bytes) (strong : Bool) : ℕ → Bytes → Bool
  | 0, _ => false
  | n + 1, p =>
    let p := p.dropWhile isListSpace
    -- "W/"
    let weak := (str "W/").isPrefixOf p
    let p := if weak then p.drop 2 else p
    match p with
    | [] => false
    | c :: rest =>
      if c ≠ 0x22 then etagList etag strong n (p.dropWhile (· != 0x2C))
      else
        match rest.dropWhile (· != 0x22) with
        | [] => false
        | _ :: next =>
          if weak && strong then etagList etag strong n next
          else if 0x22 :: (rest.takeWhile (· != 0x22) ++ [0x22]) = etag then true
          else etagList etag strong n next

def etagMatch (list etag : Bytes) (ownWeak strong : Bool) : Bool :=
  let p := list.dropWhile isOws
  if p = str "*" then true
  else if ownWeak && strong then false
  else etagList etag strong (p.length + 1) p

/-! ### Preconditions -/

structure Seen where
  imSeen : Bool := false
  imMatch : Bool := false
  inmSeen : Bool := false
  inmMatch : Bool := false
  ium : Option HttpField := none
  ims : Option HttpField := none

def Seen.field (etag : Bytes) (weak : Bool) (s : Seen) (f : HttpField) : Seen :=
  if f.skip then s
  else if strcasestrEq f.name (str "If-Match") then
    { s with imSeen := true, imMatch := s.imMatch || etagMatch f.value etag weak true }
  else if strcasestrEq f.name (str "If-None-Match") then
    { s with inmSeen := true, inmMatch := s.inmMatch || etagMatch f.value etag weak false }
  else if strcasestrEq f.name (str "If-Modified-Since") then { s with ims := some f }
  else if strcasestrEq f.name (str "If-Unmodified-Since") then { s with ium := some f }
  else s

def changedSince (mtime date : ℤ) : Bool := date ≠ -1 && date < mtime

def unchangedSince (mtime date : ℤ) : Bool := date ≠ -1 && mtime ≤ date

def Seen.passes (s : Seen) (mtime : ℤ) : Bool :=
  if s.imSeen then s.imMatch
  else
    match s.ium with
    | some f => !changedSince mtime (timeParse f.value)
    | none => true

def Seen.current (s : Seen) (mtime : ℤ) (dateOk : Bool) : Bool :=
  if s.inmSeen then s.inmMatch
  else
    match s.ims with
    | some f => dateOk && unchangedSince mtime (timeParse f.value)
    | none => false

def verdict (passes current : Bool) : HttpStatus :=
  if passes then if current then notModified else ok else preconditionFailed

/-- `nxt_http_static_preconditions`; `overrides` is the answer of
`nxt_http_set_headers_override_validators`. -/
def staticPreconditions (overrides : Bool) (fields : List HttpField) (etag : Bytes) (weak : Bool)
    (mtime : ℤ) (dateOk : Bool) : HttpStatus :=
  if overrides then ok
  else
    let s := fields.foldl (Seen.field etag weak) {}
    verdict (s.passes mtime) (s.current mtime dateOk)

/-! ### The grammar of the fields -/

structure EntityTag where
  weak : Bool
  opaqueTag : Bytes
  no_quote : (0x22 : UInt8) ∉ opaqueTag

def EntityTag.quoted (t : EntityTag) : Bytes := 0x22 :: (t.opaqueTag ++ [0x22])

def EntityTag.text (t : EntityTag) : Bytes := (if t.weak then str "W/" else []) ++ t.quoted

/-- **A list of entity tags**: tags, blanks and commas, with a comma between two
tags; `first` tells that a tag may stand here. -/
inductive Tags : Bool → Bytes → List EntityTag → Prop
  | nil {first : Bool} : Tags first [] []
  | blank {first : Bool} {c : UInt8} {s : Bytes} {ts : List EntityTag} :
      isOws c = true → Tags first s ts → Tags first (c :: s) ts
  | comma {first : Bool} {s : Bytes} {ts : List EntityTag} :
      Tags true s ts → Tags first (0x2C :: s) ts
  | tag {t : EntityTag} {s : Bytes} {ts : List EntityTag} :
      Tags false s ts → Tags true (t.text ++ s) (t :: ts)

inductive ListValue where
  | star
  | tags (ts : List EntityTag)

inductive Value : Bytes → ListValue → Prop
  | star : Value (str "*") .star
  | tags {s : Bytes} {ts : List EntityTag} : Tags true s ts → Value s (.tags ts)

def values (fields : List HttpField) (name : Bytes) : List Bytes :=
  (fields.filter fun f => !f.skip && strcasestrEq f.name name).map (·.value)

def joinLines : List Bytes → Bytes
  | [] => []
  | [l] => l
  | l :: ls => l ++ (str ", " ++ joinLines ls)

def WellFormedLines (lines : List Bytes) : Prop :=
  lines = [str "*"] ∨ ∀ l ∈ lines, ∃ ts, Tags true l ts

/-- `v` is the value of the joined lines, if there are any. -/
def JoinedValue (lines : List Bytes) : Option ListValue → Prop
  | none => lines = []
  | some v => lines ≠ [] ∧ Value (joinLines lines) v

/-! ### The rules -/

def EntityTag.same (strong : Bool) (a b : EntityTag) : Bool :=
  !(strong && (a.weak || b.weak)) && a.opaqueTag == b.opaqueTag

def ListValue.holds (strong : Bool) (own : EntityTag) : ListValue → Bool
  | .star => true
  | .tags ts => ts.any (EntityTag.same strong own)

/-- The date of a field; lines that are joined are a list, and a list is no
date. -/
def joinedDate : List Bytes → ℤ
  | [l] => timeParse l
  | _ => -1

def rulePasses (ifMatch : Option ListValue) (unmodified : ℤ) (own : EntityTag) (mtime : ℤ) : Bool :=
  match ifMatch with
  | some v => v.holds true own
  | none => !changedSince mtime unmodified

def ruleCurrent (ifNoneMatch : Option ListValue) (modified : ℤ) (own : EntityTag) (mtime : ℤ) : Bool :=
  match ifNoneMatch with
  | some v => v.holds false own
  | none => unchangedSince mtime modified

/-- **The rules for preconditions**, on the values of the joined fields. -/
def evaluate (ifMatch ifNoneMatch : Option ListValue) (unmodified modified : ℤ) (own : EntityTag)
    (mtime : ℤ) : HttpStatus :=
  verdict (rulePasses ifMatch unmodified own mtime) (ruleCurrent ifNoneMatch modified own mtime)

/-! ### The scan of a list -/

section Scan

variable {etag : Bytes} {strong : Bool} {n : ℕ}

theorem etagList_nil (n : ℕ) : etagList etag strong n [] = false := by
  cases n with
  | zero | succ => rfl

theorem etagList_space {c : UInt8} (hc : isListSpace c = true) (n : ℕ) (p : Bytes) :
    etagList etag strong n (c :: p) = etagList etag strong n p := by
  cases n with
  | zero => rfl
  | succ n => ?_
  unfold etagList
  rw [dropWhile_cons_of_pos hc]

theorem ite_true_eq_or {a b : Bytes} (r : Bool) : (if a = b then true else r) = (a == b || r) := by
  by_cases h : a = b
  · simp [h]
  · simp [h]

theorem etagList_tag (n : ℕ) (t : EntityTag) (s : Bytes) :
    etagList etag strong (n + 1) (t.text ++ s) =
      ((!(strong && t.weak) && t.quoted == etag) || etagList etag strong n s) := by
  obtain ⟨htake, hdrop⟩ := span_sep t.no_quote s
  have hquoted : t.quoted ++ s = 0x22 :: (t.opaqueTag ++ 0x22 :: s) := by
    simp [EntityTag.quoted]
  have hnot : (str "W/").isPrefixOf (0x22 :: (t.opaqueTag ++ 0x22 :: s)) = false := rfl
  have hquote : ∀ l : Bytes, (0x22 :: l).dropWhile isListSpace = 0x22 :: l := fun l => rfl
  have hword : ∀ l : Bytes, (str "W/" ++ l).dropWhile isListSpace = str "W/" ++ l := fun l => rfl
  have hpre : ∀ l : Bytes, (str "W/").isPrefixOf (str "W/" ++ l) = true := fun l => rfl
  have htwo : ∀ l : Bytes, (str "W/" ++ l).drop 2 = l := fun l => rfl
  rw [etagList, EntityTag.text]
  cases hw : t.weak with
  | true =>
    simp only [if_true, append_assoc, hword, hquoted, hpre, htwo, hdrop, htake, ne_eq,
      not_true_eq_false, if_false, Bool.true_and, Bool.and_true]
    cases strong with
    | true => simp
    | false => exact ite_true_eq_or _
  | false => ?_
  simp only [Bool.false_eq_true, if_false, nil_append, hquoted, hquote, hnot, hdrop, htake,
    ne_eq, not_true_eq_false, Bool.false_and, Bool.and_false, Bool.not_false, Bool.true_and]
  exact ite_true_eq_or _

variable {first : Bool} {s : Bytes} {ts : List EntityTag}

/-- **The scan finds the tags of a list.** -/
theorem etagList_of_tags (h : Tags first s ts) (hn : s.length < n) :
    etagList etag strong n s = ts.any fun t => !(strong && t.weak) && t.quoted == etag := by
  induction h generalizing n with
  | nil => exact etagList_nil n
  | blank hc _ ih =>
    rw [etagList_space (by simp [isListSpace, hc])]
    exact ih (Nat.lt_of_succ_lt hn)
  | comma _ ih =>
    rw [etagList_space rfl]
    exact ih (Nat.lt_of_succ_lt hn)
  | @tag t s ts _ ih => ?_
  cases n with
  | zero => exact absurd hn (Nat.not_lt_zero _)
  | succ n => ?_
  have hlen : s.length < n := by
    rw [length_append, EntityTag.text, length_append, EntityTag.quoted, length_cons] at hn
    omega
  rw [etagList_tag, any_cons, ih hlen]

/-- The blanks before a list do not belong to it. -/
theorem Tags.dropWhile (h : Tags first s ts) : Tags first (s.dropWhile isOws) ts := by
  induction h with
  | nil => exact .nil
  | blank hc _ ih => rwa [dropWhile_cons_of_pos hc]
  | comma h _ => exact .comma h
  | @tag t s ts h _ => ?_
  have hdrop : (t.text ++ s).dropWhile isOws = t.text ++ s := by
    unfold EntityTag.text
    cases t.weak <;> rfl
  rw [hdrop]
  exact .tag h

theorem Tags.ne_star (h : Tags first s ts) : s.dropWhile isOws ≠ str "*" := by
  induction h with
  | nil =>
    intro h
    cases h
  | blank hc _ ih => rwa [dropWhile_cons_of_pos hc]
  | comma _ _ =>
    intro h
    cases h
  | @tag t s ts _ _ => ?_
  intro h
  unfold EntityTag.text at h
  cases hw : t.weak with
  | true | false =>
    rw [hw] at h
    cases h

theorem Tags.append {s' : Bytes} {ts' : List EntityTag} (h : Tags first s ts)
    (h' : Tags true s' ts') : Tags first (s ++ 0x2C :: s') (ts ++ ts') := by
  induction h with
  | nil => exact .comma h'
  | blank hc _ ih => exact .blank hc ih
  | comma _ ih => exact .comma ih
  | @tag t s ts _ ih => ?_
  rw [append_assoc]
  exact .tag ih

end Scan

/-! ### One field on several lines -/

section Lines

variable {own : EntityTag} {strong : Bool}

theorem quoted_beq (t own : EntityTag) : (t.quoted == own.quoted) = (own.opaqueTag == t.opaqueTag) := by
  rw [Bool.eq_iff_iff, beq_iff_eq, beq_iff_eq]
  constructor
  · intro h
    exact (append_cancel_right (cons.inj h).2).symm
  · intro h
    rw [EntityTag.quoted, EntityTag.quoted, h]

theorem etagMatch_tags {l : Bytes} {ts : List EntityTag} (h : Tags true l ts) :
    etagMatch l own.quoted own.weak strong = ts.any (EntityTag.same strong own) := by
  unfold etagMatch
  dsimp only
  rw [if_neg h.ne_star]
  cases hboth : own.weak && strong with
  | true =>
    rw [Bool.and_eq_true] at hboth
    simp [EntityTag.same, hboth.1, hboth.2]
  | false => ?_
  rw [if_neg Bool.false_ne_true, etagList_of_tags h.dropWhile (Nat.lt_succ_self _)]
  congr 1
  funext t
  rw [quoted_beq, EntityTag.same]
  cases strong with
  | true =>
    rw [Bool.and_true] at hboth
    rw [hboth, Bool.false_or]
  | false => rfl

theorem exists_tags_joinLines {lines : List Bytes} (h : ∀ l ∈ lines, ∃ ts, Tags true l ts) :
    ∃ ts, Tags true (joinLines lines) ts ∧ ∀ (own : EntityTag) (strong : Bool),
      lines.any (etagMatch · own.quoted own.weak strong) = ts.any (EntityTag.same strong own) := by
  induction lines with
  | nil => exact ⟨[], .nil, fun _ _ => rfl⟩
  | cons l ls ih => ?_
  obtain ⟨ts, hts⟩ := h l mem_cons_self
  cases ls with
  | nil =>
    refine ⟨ts, hts, fun own strong => ?_⟩
    rw [any_cons, any_nil, Bool.or_false, etagMatch_tags hts]
  | cons l' ls => ?_
  obtain ⟨ts', hts', hany⟩ := ih fun x hx => h x (mem_cons_of_mem _ hx)
  refine ⟨ts ++ ts', hts.append (.blank rfl hts'), fun own strong => ?_⟩
  rw [any_cons, hany, any_append, etagMatch_tags hts]

/-- **A field on several lines** matches as its joined value does. -/
theorem any_etagMatch {lines : List Bytes} {v : ListValue} (hlines : WellFormedLines lines)
    (hv : Value (joinLines lines) v) :
    lines.any (etagMatch · own.quoted own.weak strong) = v.holds strong own := by
  rcases hlines with rfl | htags
  · -- a star alone
    generalize htext : joinLines [str "*"] = text at hv
    cases hv with
    | star => rfl
    | tags h => ?_
    rw [← htext] at h
    exact absurd rfl h.ne_star
  obtain ⟨ts', hts', hany⟩ := exists_tags_joinLines htags
  rw [hany]
  generalize joinLines lines = text at hv hts'
  cases hv with
  | star => exact absurd rfl hts'.ne_star
  | tags h => ?_
  -- two readings of one text
  rw [ListValue.holds, ← etagMatch_tags h, etagMatch_tags hts']

end Lines

/-! ### The loop over the fields -/

section Loop

variable {etag : Bytes} {weak : Bool}

theorem values_append (fields : List HttpField) (f : HttpField) (name : Bytes) :
    values (fields ++ [f]) name =
      values fields name ++ if !f.skip && strcasestrEq f.name name then [f.value] else [] := by
  unfold values
  rw [filter_append, map_append]
  cases hf : !f.skip && strcasestrEq f.name name with
  | true | false => simp [hf]

theorem strcasestrEq_ne {x a b : Bytes} (h : strcasestrEq x a = true)
    (hab : strcasestrEq a b = false) : strcasestrEq x b = false := by
  unfold strcasestrEq at *
  rwa [beq_iff_eq.mp h]

structure SeenOf (etag : Bytes) (weak : Bool) (fields : List HttpField) (s : Seen) : Prop where
  imSeen : s.imSeen = !(values fields (str "If-Match")).isEmpty
  imMatch : s.imMatch = (values fields (str "If-Match")).any (etagMatch · etag weak true)
  inmSeen : s.inmSeen = !(values fields (str "If-None-Match")).isEmpty
  inmMatch : s.inmMatch = (values fields (str "If-None-Match")).any (etagMatch · etag weak false)
  ium : s.ium.map (·.value) = (values fields (str "If-Unmodified-Since")).getLast?
  ims : s.ims.map (·.value) = (values fields (str "If-Modified-Since")).getLast?

theorem seenOf (fields : List HttpField) :
    SeenOf etag weak fields (fields.foldl (Seen.field etag weak) {}) := by
  induction fields using reverseRecOn with
  | nil => exact ⟨rfl, rfl, rfl, rfl, rfl, rfl⟩
  | append_singleton fields f ih => ?_
  obtain ⟨h1, h2, h3, h4, h5, h6⟩ := ih
  rw [foldl_append, foldl_cons, foldl_nil]
  generalize fields.foldl (Seen.field etag weak) {} = s at h1 h2 h3 h4 h5 h6
  unfold Seen.field
  split_ifs with hskip hname hname hname hname
  · constructor <;> simpa [values_append, hskip]
  · have hinm := strcasestrEq_ne hname (b := str "If-None-Match") (by decide)
    have hium := strcasestrEq_ne hname (b := str "If-Unmodified-Since") (by decide)
    have hims := strcasestrEq_ne hname (b := str "If-Modified-Since") (by decide)
    constructor <;> simp [values_append, *]
  · have hium := strcasestrEq_ne hname (b := str "If-Unmodified-Since") (by decide)
    have hims := strcasestrEq_ne hname (b := str "If-Modified-Since") (by decide)
    constructor <;> simp [values_append, *]
  · have hium := strcasestrEq_ne hname (b := str "If-Unmodified-Since") (by decide)
    constructor <;> simp [values_append, *]
  · constructor <;> simp [values_append, *]
  · constructor <;> simp [values_append, *]

def lastDate (lines : List Bytes) : ℤ := (lines.getLast?.map timeParse).getD (-1)

theorem passes_eq {fields : List HttpField} {s : Seen} (hs : SeenOf etag weak fields s) (mtime : ℤ) :
    s.passes mtime = if values fields (str "If-Match") = [] then
        !changedSince mtime (lastDate (values fields (str "If-Unmodified-Since")))
      else (values fields (str "If-Match")).any (etagMatch · etag weak true) := by
  unfold Seen.passes lastDate
  rw [hs.imSeen, hs.imMatch, ← hs.ium]
  cases values fields (str "If-Match") with
  | nil =>
    rw [if_neg (by simp), if_pos rfl]
    cases s.ium with
    | none | some => rfl
  | cons l ls => rw [if_pos (by simp), if_neg (by simp)]

theorem current_eq {fields : List HttpField} {s : Seen} (hs : SeenOf etag weak fields s) (mtime : ℤ) :
    s.current mtime true = if values fields (str "If-None-Match") = [] then
        unchangedSince mtime (lastDate (values fields (str "If-Modified-Since")))
      else (values fields (str "If-None-Match")).any (etagMatch · etag weak false) := by
  unfold Seen.current lastDate
  rw [hs.inmSeen, hs.inmMatch, ← hs.ims]
  cases values fields (str "If-None-Match") with
  | nil =>
    rw [if_neg (by simp), if_pos rfl]
    cases s.ims with
    | none | some => rfl
  | cons l ls => rw [if_pos (by simp), if_neg (by simp)]

end Loop

/-! ### The answer -/

/-- Two answers are the same if their decisions are, as far as they count. -/
theorem verdict_eq_iff (p p' c c' : Bool) :
    verdict p c = verdict p' c' ↔ p = p' ∧ (p' = true → c = c') := by
  revert p p' c c'
  decide

/-- Each date field that counts is on one line, or its last line decides nothing;
`overrides` leaves no conditions. -/
def DatesAgree (overrides : Bool) (fields : List HttpField) (ifMatch ifNoneMatch : Option ListValue)
    (own : EntityTag) (mtime : ℤ) : Prop :=
  let unmodified := values fields (str "If-Unmodified-Since")
  let modified := values fields (str "If-Modified-Since")
  if overrides then
    evaluate ifMatch ifNoneMatch (joinedDate unmodified) (joinedDate modified) own mtime = ok
  else
    (ifMatch = none →
      changedSince mtime (lastDate unmodified) = changedSince mtime (joinedDate unmodified)) ∧
    (rulePasses ifMatch (joinedDate unmodified) own mtime = true → ifNoneMatch = none →
      unchangedSince mtime (lastDate modified) = unchangedSince mtime (joinedDate modified))

end FreeUnit.Static
