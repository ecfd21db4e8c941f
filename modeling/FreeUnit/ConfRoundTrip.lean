/-
A configuration that was parsed can be printed and parsed again.

The values that the parser returns meet its limits (`Conf.Valid`), and a value
that meets them is read back from its printed text, compact or indented.  Read
back it is the same value; only the members of an object may come in another
order, since the parser returns them in the order of its hash.

* `confJsonParse_print` — what is printed of a parsed payload is read back.
-/
import FreeUnit.ConfScalars

namespace FreeUnit

open List

/-! ### Values within the limits -/

/-- Equal values: equal scalars, equal elements in the same order, and objects
with the same names and equal values under each name. -/
inductive Conf.Same : Conf → Conf → Prop
  | scalar {v : Conf} (hv : v.isContainer = false) : Conf.Same v v
  | array {es es' : List Conf} (hlen : es.length = es'.length)
      (hes : ∀ (i : ℕ) e e', es[i]? = some e → es'[i]? = some e' → Conf.Same e e') :
      Conf.Same (.array es) (.array es')
  | object {ms ms' : List (Bytes × Conf)} (hnames : (ms.map (·.1)).Perm (ms'.map (·.1)))
      (hms : ∀ name v v', (name, v) ∈ ms → (name, v') ∈ ms' → Conf.Same v v') :
      Conf.Same (.object ms) (.object ms')

def NumberHead (w : Bytes) : Prop :=
  (∃ ch p, w = ch :: p ∧ isDigit ch = true) ∨ ∃ ch p, w = 0x2D :: ch :: p ∧ isDigit ch = true

section Valid

variable (strtod : Bytes → Strtod)

def Conf.ScalarValid : Conf → Prop
  | .null | .boolean _ => True
  | .integer w => NumberHead w ∧ jsonParseNumber strtod w = .ok (.integer w, [])
  | .number w => NumberHead w ∧ jsonParseNumber strtod w = .ok (.number w, [])
  | .string s => StringFits s
  | .array _ | .object _ => False

/-- A value within the limits of the parser, with at most `depth` levels of
nesting. -/
def Conf.Valid : ℕ → Conf → Prop
  | depth + 1, .array es => es.length ≤ jsonMaxElements ∧ ∀ e ∈ es, Conf.Valid depth e
  | depth + 1, .object ms =>
    ms.length ≤ jsonMaxElements ∧ (ms.map (·.1)).Nodup ∧
      ∀ m ∈ ms, StringFits m.1 ∧ Conf.Valid depth m.2
  | _, v => v.ScalarValid strtod

variable {v : Conf} {q p g t r : Bytes} {seen : List Bytes} {c : UInt8} {left : ℕ}
  {ms : List (Bytes × Conf)}

theorem valid_iff_of_scalar (h : v.isContainer = false) (depth : ℕ) :
    v.Valid strtod depth ↔ v.ScalarValid strtod := by
  cases v with
  | array | object => cases h
  | null | boolean b | integer w | number w | string s => cases depth <;> rfl

end Valid

/-! ### The parser's cases -/

section Sound

variable {strtod : Bytes → Strtod} {hash : HashOrder}

variable {start : Bytes}

/-- A number that is followed by what may follow it. -/
theorem jsonNumberValue_ok {ch : UInt8} (h : jsonNumberValue strtod ch start = .ok (v, q)) :
    isDigit ch = true ∧ jsonParseNumber strtod start = .ok (v, q) ∧ Terminated q := by
  rw [jsonNumberValue] at h
  split_ifs at h with hdigit
  · obtain ⟨⟨value, p⟩, hnum, h⟩ := bind_eq_ok h
    cases p with
    | nil =>
      cases h
      exact ⟨hdigit, hnum, terminated_nil⟩
    | cons c p => ?_
    dsimp only at h
    split_ifs at h with hends
    · cases h
      exact ⟨hdigit, hnum, terminated_cons hends p⟩
    · cases h
  · cases h

inductive ParsedAs (strtod : Bytes → Strtod) (hash : HashOrder) (depth : ℕ) (start : Bytes) :
    Conf → Bytes → Prop
  | object {d : ℕ} {ms : List (Bytes × Conf)} {q : Bytes} (hdepth : depth = d + 1)
      (hloop : objectLoop (jsonParseValue strtod hash d) [] jsonMaxElements start = .ok (ms, q)) :
      ParsedAs strtod hash depth start (.object (hash.order ms)) q
  | array {d : ℕ} {es : List Conf} {q : Bytes} (hdepth : depth = d + 1)
      (hloop : arrayLoop (jsonParseValue strtod hash d) jsonMaxElements start = .ok (es, q)) :
      ParsedAs strtod hash depth start (.array es) q
  | string {s q : Bytes} (hs : jsonParseString start = .ok (s, q)) :
      ParsedAs strtod hash depth start (.string s) q
  | literal {v : Conf} {q : Bytes} (hv : v = .null ∨ ∃ b, v = .boolean b) :
      ParsedAs strtod hash depth start v q
  | number {v : Conf} {q : Bytes} (hhead : NumberHead start) (hq : Terminated q)
      (hnum : jsonParseNumber strtod start = .ok (v, q)) : ParsedAs strtod hash depth start v q

theorem parsedAs_of_ok {depth : ℕ} (h : jsonParseValue strtod hash depth start = .ok (v, q)) :
    ParsedAs strtod hash depth start v q := by
  rw [jsonParseValue.eq_def] at h
  cases start with
  | nil => cases h
  | cons ch p => ?_
  dsimp only at h
  split_ifs at h with hobj harr hstr ht htrue hf hfalse hn hnull hminus
  · cases depth with
    | zero => cases h
    | succ d => ?_
    obtain ⟨r, hloop, h⟩ := bind_eq_ok h
    cases h
    exact .object rfl hloop
  · cases depth with
    | zero => cases h
    | succ d => ?_
    obtain ⟨r, hloop, h⟩ := bind_eq_ok h
    cases h
    exact .array rfl hloop
  · obtain ⟨r, hs, h⟩ := bind_eq_ok h
    cases h
    exact .string hs
  · cases h
    exact .literal (.inr ⟨true, rfl⟩)
  · cases h
  · cases h
    exact .literal (.inr ⟨false, rfl⟩)
  · cases h
  · cases h
    exact .literal (.inl rfl)
  · cases h
  · cases p with
    | nil => cases h
    | cons second p => ?_
    obtain ⟨hdigit, hnum, hq⟩ := jsonNumberValue_ok h
    exact .number (.inr ⟨second, p, by rw [hminus], hdigit⟩) hq hnum
  obtain ⟨hdigit, hnum, hq⟩ := jsonNumberValue_ok h
  exact .number (.inl ⟨ch, p, rfl, hdigit⟩) hq hnum

/-! ### What was parsed is valid -/

theorem numberHead_of_append {w : Bytes} (h : NumberHead (w ++ q)) (hq : Terminated q) :
    NumberHead w := by
  have hdigit : ∀ {c : UInt8} {t : Bytes}, q = c :: t → isDigit c = false ∧ c ≠ 0x2D := by
    rintro c t rfl
    obtain ⟨h1, -, -, -, h2, -⟩ := not_number_of_endsNumber (hq c rfl)
    exact ⟨h1, h2⟩
  rcases h with ⟨ch, p, heq, hch⟩ | ⟨ch, p, heq, hch⟩
  · cases w with
    | nil =>
      rw [(hdigit heq).1] at hch
      cases hch
    | cons c w => ?_
    injection heq with h1 _
    exact .inl ⟨c, w, rfl, h1 ▸ hch⟩
  cases w with
  | nil => exact absurd rfl (hdigit heq).2
  | cons c w => ?_
  injection heq with h1 h2
  cases w with
  | nil =>
    rw [(hdigit h2).1] at hch
    cases hch
  | cons c' w => ?_
  injection h2 with h2 _
  exact .inr ⟨c', w, by rw [h1], h2 ▸ hch⟩

theorem scalarValid_of_number (hhead : NumberHead start) (hq : Terminated q)
    (h : jsonParseNumber strtod start = .ok (v, q)) :
    v.isContainer = false ∧ v.ScalarValid strtod := by
  obtain ⟨w, rfl⟩ := jsonParseNumber_suffix strtod h
  have hw := (jsonParseNumber_append strtod hq).mp h
  have hwhead := numberHead_of_append hhead hq
  obtain ⟨-, -, -, -, -, -, hval⟩ := (jsonParseNumber_eq_ok strtod).mp hw
  rw [length_nil, Nat.sub_zero, take_length, numberValue] at hval
  cases hd : strtod w with
  | outOfRange | unfinished =>
    rw [hd] at hval
    cases hval
  | whole | fraction =>
    rw [hd] at hval
    cases hval
    exact ⟨rfl, hwhead, hw⟩

variable {P : Conf → Prop}

theorem arrayLoop_ok {parseValue : Bytes → JsonResult (Conf × Bytes)}
    (hP : ∀ {p v q}, parseValue p = .ok (v, q) → P v) {left : ℕ} {p q : Bytes} {es : List Conf}
    (h : arrayLoop parseValue left p = .ok (es, q)) : es.length ≤ left ∧ ∀ e ∈ es, P e := by
  induction left using Nat.strong_induction_on generalizing p q es with
  | _ left ih =>
    rw [arrayLoop.eq_def] at h
    split at h
    · cases h
    next ch p' hskip =>
    split_ifs at h
    · cases h
      simp
    cases left with
    | zero => cases h
    | succ left => ?_
    obtain ⟨⟨element, p''⟩, hv, h⟩ := bind_eq_ok h
    dsimp only at h
    split at h
    · cases h
    next c p3 hskip' =>
    split_ifs at h
    · obtain ⟨r, hrest, h⟩ := bind_eq_ok h
      cases h
      obtain ⟨hlen, hes⟩ := ih left (Nat.lt_succ_self _) hrest
      exact ⟨Nat.succ_le_succ hlen, forall_mem_cons.mpr ⟨hP hv, hes⟩⟩
    · cases h
      exact ⟨by simp, by simpa using hP hv⟩
    · cases h

theorem parseMember_ok {parseValue : Bytes → JsonResult (Conf × Bytes)}
    {m : Bytes × Conf} (h : parseMember parseValue seen p = .ok (m, q)) :
    m.1 ∉ seen ∧ (∃ r, jsonParseString p = .ok (m.1, r)) ∧ ∃ r, parseValue r = .ok (m.2, q) := by
  rw [parseMember] at h
  obtain ⟨⟨name, r⟩, hs, h⟩ := bind_eq_ok h
  dsimp only at h
  split_ifs at h with hseen
  · cases h
  split at h
  · cases h
  split_ifs at h
  · cases h
  split at h
  · cases h
  next c r' _ =>
  obtain ⟨res, hv, h⟩ := bind_eq_ok h
  cases h
  exact ⟨hseen, ⟨r, hs⟩, c :: r', hv⟩

theorem objectLoop_ok {parseValue : Bytes → JsonResult (Conf × Bytes)}
    (hP : ∀ {p v q}, parseValue p = .ok (v, q) → P v) {left : ℕ} {seen : List Bytes} {p q : Bytes}
    {ms : List (Bytes × Conf)} (h : objectLoop parseValue seen left p = .ok (ms, q)) :
    ms.length ≤ left ∧ (ms.map (·.1)).Nodup ∧ (∀ m ∈ ms, m.1 ∉ seen) ∧
      ∀ m ∈ ms, StringFits m.1 ∧ P m.2 := by
  induction left using Nat.strong_induction_on generalizing seen p q ms with
  | _ left ih =>
    rw [objectLoop.eq_def] at h
    split at h
    · cases h
    next ch p' hskip =>
    split_ifs at h
    · cases h
      simp
    · cases h
    cases left with
    | zero => cases h
    | succ left => ?_
    obtain ⟨⟨member, p''⟩, hm, h⟩ := bind_eq_ok h
    obtain ⟨hseen, ⟨r, hname⟩, r', hvalue⟩ := parseMember_ok hm
    have hmember : StringFits member.1 ∧ P member.2 := ⟨stringFits_of_parse hname, hP hvalue⟩
    dsimp only at h
    split at h
    · cases h
    next c p3 hskip' =>
    split_ifs at h
    · obtain ⟨r, hrest, h⟩ := bind_eq_ok h
      cases h
      obtain ⟨hlen, hnodup, hfresh, hms⟩ := ih left (Nat.lt_succ_self _) hrest
      refine ⟨Nat.succ_le_succ hlen, ?_, ?_, forall_mem_cons.mpr ⟨hmember, hms⟩⟩
      · rw [map_cons, nodup_cons]
        refine ⟨?_, hnodup⟩
        intro hmem
        obtain ⟨m, hm', heq⟩ := mem_map.mp hmem
        exact hfresh m hm' (by rw [heq]; exact mem_cons_self)
      · exact forall_mem_cons.mpr
          ⟨hseen, fun m hm' hmem => hfresh m hm' (mem_cons_of_mem _ hmem)⟩
    · cases h
      exact ⟨by simp, by simp, by simpa using hseen, by simpa using hmember⟩
    · cases h

/-- **What was parsed is within the limits.** -/
theorem valid_of_parse {depth : ℕ} {start q : Bytes} {v : Conf}
    (h : jsonParseValue strtod hash depth start = .ok (v, q)) : v.Valid strtod depth := by
  induction depth using Nat.strong_induction_on generalizing start q v with
  | _ depth ih =>
    cases parsedAs_of_ok h with
    | @object d ms _ hdepth hloop =>
      subst hdepth
      obtain ⟨hlen, hnodup, -, hms⟩ := objectLoop_ok (fun hv => ih d (Nat.lt_succ_self d) hv) hloop
      have hperm := hash.perm ms
      refine ⟨hperm.length_eq ▸ hlen, (hperm.map _).nodup_iff.mpr hnodup, ?_⟩
      intro m hm
      exact hms m (hperm.mem_iff.mp hm)
    | array hdepth hloop =>
      subst hdepth
      exact arrayLoop_ok (fun hv => ih _ (Nat.lt_succ_self _) hv) hloop
    | string hs => exact (valid_iff_of_scalar strtod rfl depth).mpr (stringFits_of_parse hs)
    | literal hv =>
      rcases hv with rfl | ⟨b, rfl⟩
      · exact (valid_iff_of_scalar strtod rfl depth).mpr trivial
      · exact (valid_iff_of_scalar strtod rfl depth).mpr trivial
    | number hhead hq hnum => ?_
    obtain ⟨hscalar, hvalid⟩ := scalarValid_of_number hhead hq hnum
    exact (valid_iff_of_scalar strtod hscalar depth).mpr hvalid

end Sound

/-! ### Gaps -/

def Gap (g : Bytes) : Prop := ∀ c ∈ g, isJsonSpace c = true

theorem gap_nil : Gap [] := by simp [Gap]

theorem gap_append {h : Bytes} (hg : Gap g) (hh : Gap h) : Gap (g ++ h) := by
  intro c hc
  rcases mem_append.mp hc with hc | hc
  · exact hg c hc
  · exact hh c hc

theorem gap_newline (pretty : Option ℕ) : Gap (prettyNewline pretty) := by
  cases pretty with
  | none => exact gap_nil
  | some level => ?_
  intro c hc
  simp only [prettyNewline, jsonNewline, mem_cons, not_mem_nil, or_false] at hc
  rcases hc with rfl | rfl <;> rfl

theorem gap_indent (pretty : Option ℕ) : Gap (prettyIndent pretty) := by
  cases pretty with
  | none => exact gap_nil
  | some level => ?_
  intro c hc
  rw [eq_of_mem_replicate hc]
  rfl

/-- The skip over white space stops at the next token. -/
theorem jsonSkipSpace_gap (hg : Gap g) (hspace : isJsonSpace c = false)
    (hslash : c ≠ 0x2F) (t : Bytes) : jsonSkipSpace (g ++ c :: t) = c :: t := by
  rw [jsonSkipSpace]
  induction g with
  | nil => simp [skipSpaceLoop, hspace, hslash]
  | cons b g ih => ?_
  rw [cons_append, skipSpaceLoop, if_pos (hg b (by simp))]
  exact ih fun x hx => hg x (mem_cons_of_mem _ hx)

/-- What follows a value in a printed text ends a number. -/
theorem terminated_gap (hg : Gap g) (hc : endsNumber c = true)
    (t : Bytes) : Terminated (g ++ c :: t) := by
  have hspace : ∀ b : UInt8, isJsonSpace b = true → endsNumber b = true := by grind [isJsonSpace, endsNumber]
  cases g with
  | nil => exact terminated_cons hc t
  | cons b g => exact terminated_cons (hspace b (hg b (by simp))) _

def valueHead (c : UInt8) : Bool :=
  isDigit c || c == 0x2D || c == 0x22 || c == 0x5B || c == 0x7B || c == 0x74 || c == 0x66 ||
    c == 0x6E

theorem not_space_of_valueHead (h : valueHead c = true) :
    isJsonSpace c = false ∧ c ≠ 0x2F ∧ c ≠ 0x5D := by
  have key : ∀ c : UInt8, valueHead c = true →
      isJsonSpace c = false ∧ c ≠ 0x2F ∧ c ≠ 0x5D := by decide +kernel
  exact key c h

theorem valueHead_of_isDigit (h : isDigit c = true) : valueHead c = true := by
  simp [valueHead, h]

/-! ### What is valid is read back -/

/-- A printed value is read back by `parseValue`, whatever ends it. -/
structure ReadsBack (parseValue : Bytes → JsonResult (Conf × Bytes)) (v : Conf) : Prop where
  head : ∀ pretty more, ∃ c t, (jsonPrint pretty more v).1 = c :: t ∧ valueHead c = true
  value : ∀ pretty more rest, Terminated rest → ∃ v',
    parseValue ((jsonPrint pretty more v).1 ++ rest) = .ok (v', rest) ∧ v.Same v'

section Elements

variable {parseValue : Bytes → JsonResult (Conf × Bytes)}

variable {b : UInt8} {e : Conf}

/-- The last element, before the closing bracket. -/
theorem arrayLoop_close (hg : Gap g) (hb : valueHead b = true)
    (hparse : parseValue (b :: t) = .ok (e, r)) (hskip : jsonSkipSpace r = 0x5D :: q) :
    arrayLoop parseValue (left + 1) (c :: (g ++ b :: t)) = .ok ([e], q) := by
  obtain ⟨hspace, hslash, hbracket⟩ := not_space_of_valueHead hb
  rw [arrayLoop.eq_def]
  simp only [drop_one, tail_cons, jsonSkipSpace_gap hg hspace hslash, hbracket,
    if_false, bind, Except.bind, hparse, hskip]
  rfl

variable {q' : Bytes}

theorem arrayLoop_comma {es : List Conf} (hg : Gap g) (hb : valueHead b = true)
    (hparse : parseValue (b :: t) = .ok (e, r)) (hskip : jsonSkipSpace r = 0x2C :: q)
    (hrest : arrayLoop parseValue left (0x2C :: q) = .ok (es, q')) :
    arrayLoop parseValue (left + 1) (c :: (g ++ b :: t)) = .ok (e :: es, q') := by
  obtain ⟨hspace, hslash, hbracket⟩ := not_space_of_valueHead hb
  rw [arrayLoop.eq_def]
  simp only [drop_one, tail_cons, jsonSkipSpace_gap hg hspace hslash, hbracket,
    if_false, bind, Except.bind, hparse, hskip, hrest, if_true]

variable {inner : Option ℕ} {close : Bytes}

/-- The elements of a printed array are read back. -/
theorem arrayLoop_print (hclose : Gap close) (rest : Bytes) (es : List Conf) (e : Conf) (left : ℕ)
    (c : UInt8) (g : Bytes) (more more' : Bool) (hg : Gap g) (hleft : es.length ≤ left)
    (he : ReadsBack parseValue e) (hes : ∀ x ∈ es, ReadsBack parseValue x) :
    ∃ es', arrayLoop parseValue (left + 1) (c :: (g ++ ((jsonPrint inner more e).1 ++
        ((printElements inner more' es).1 ++ (close ++ 0x5D :: rest))))) = .ok (es', rest) ∧
      List.Forall₂ Conf.Same (e :: es) es' := by
  induction es generalizing e left c g more more' with
  | nil =>
    obtain ⟨b, t, htext, hb⟩ := he.head inner more
    obtain ⟨e', hparse, hsame⟩ := he.value inner more (close ++ 0x5D :: rest)
      (terminated_gap hclose (by decide) rest)
    refine ⟨[e'], ?_, .cons hsame .nil⟩
    rw [htext, cons_append] at hparse
    rw [htext, printElements, nil_append, cons_append]
    exact arrayLoop_close hg hb hparse (jsonSkipSpace_gap hclose (by decide) (by decide) rest)
  | cons x es ih => ?_
  obtain ⟨left, rfl⟩ : ∃ n, left = n + 1 := ⟨left - 1, by simp at hleft; omega⟩
  obtain ⟨b, t, htext, hb⟩ := he.head inner more
  have hlen : es.length ≤ left := by simpa using hleft
  have hx := hes x (by simp)
  have hrest := fun y hy => hes y (mem_cons_of_mem x hy)
  -- the text behind the first element starts with its comma
  have hgap := gap_append (gap_newline inner) (gap_indent inner)
  have htail : (printElements inner more' (x :: es)).1 ++ (close ++ 0x5D :: rest) =
      0x2C :: ((prettyNewline inner ++ prettyIndent inner) ++
        ((jsonPrint inner (if inner.isSome then false else more') x).1 ++ ((printElements inner
            (jsonPrint inner (if inner.isSome then false else more') x).2 es).1 ++
            (close ++ 0x5D :: rest)))) := by
    simp [printElements]
  rw [htail]
  obtain ⟨es', hloop, hsame'⟩ := ih x left 0x2C _ (if inner.isSome then false else more')
    (jsonPrint inner (if inner.isSome then false else more') x).2 hgap hlen hx hrest
  obtain ⟨e', hparse, hsame⟩ := he.value inner more _
    (terminated_cons (show endsNumber 0x2C = true by decide) _)
  refine ⟨e' :: es', ?_, .cons hsame hsame'⟩
  rw [htext, cons_append] at hparse ⊢
  exact arrayLoop_comma hg hb hparse (jsonSkipSpace_gap gap_nil (by decide) (by decide) _) hloop

/-! ### Members -/

theorem parseMember_print {name : Bytes} (hname : StringFits name)
    (hseen : name ∉ seen) (hg : Gap g) (hv : ReadsBack parseValue v) (pretty : Option ℕ)
    (more : Bool) {rest : Bytes} (hrest : Terminated rest) :
    ∃ v', parseMember parseValue seen (jsonPrintString name ++ 0x3A :: (g ++
        ((jsonPrint pretty more v).1 ++ rest))) = .ok ((name, v'), rest) ∧ v.Same v' := by
  obtain ⟨b, t, htext, hb⟩ := hv.head pretty more
  obtain ⟨hspace, hslash, -⟩ := not_space_of_valueHead hb
  obtain ⟨v', hparse, hsame⟩ := hv.value pretty more rest hrest
  refine ⟨v', ?_, hsame⟩
  rw [htext, cons_append] at hparse ⊢
  have hcolon : jsonSkipSpace (0x3A :: (g ++ b :: (t ++ rest))) = 0x3A :: (g ++ b :: (t ++ rest)) :=
    jsonSkipSpace_gap gap_nil (by decide) (by decide) _
  rw [parseMember, jsonParseString_print hname]
  simp only [bind, Except.bind, hseen, if_false, hcolon, ne_eq, not_true_eq_false,
    jsonSkipSpace_gap hg hspace hslash, hparse]

variable {m : Bytes × Conf}

theorem objectLoop_close (hg : Gap g)
    (hparse : parseMember parseValue seen (0x22 :: t) = .ok (m, r))
    (hskip : jsonSkipSpace r = 0x7D :: q) :
    objectLoop parseValue seen (left + 1) (c :: (g ++ 0x22 :: t)) = .ok ([m], q) := by
  rw [objectLoop.eq_def]
  simp only [drop_one, tail_cons,
    jsonSkipSpace_gap hg (show isJsonSpace 0x22 = false by decide) (by decide), ne_eq,
    not_true_eq_false, if_false, bind, Except.bind, hparse, hskip]
  rfl

theorem objectLoop_comma (hg : Gap g)
    (hparse : parseMember parseValue seen (0x22 :: t) = .ok (m, r))
    (hskip : jsonSkipSpace r = 0x2C :: q)
    (hrest : objectLoop parseValue (m.1 :: seen) left (0x2C :: q) = .ok (ms, q')) :
    objectLoop parseValue seen (left + 1) (c :: (g ++ 0x22 :: t)) = .ok (m :: ms, q') := by
  rw [objectLoop.eq_def]
  simp only [drop_one, tail_cons,
    jsonSkipSpace_gap hg (show isJsonSpace 0x22 = false by decide) (by decide), ne_eq,
    not_true_eq_false, if_false, bind, Except.bind, hparse, hskip, hrest, if_true]

abbrev SameMember (m m' : Bytes × Conf) : Prop := m.1 = m'.1 ∧ m.2.Same m'.2

/-- The white space between a colon and its value. -/
theorem gap_space (pretty : Option ℕ) : Gap (if pretty.isSome then [0x20] else []) := by
  cases pretty with
  | none => exact gap_nil
  | some level => ?_
  intro c hc
  rw [mem_singleton.mp hc]
  rfl

theorem gap_emptyLine (b : Prop) [Decidable b] : Gap (if b then jsonNewline else []) := by
  split_ifs
  · exact gap_newline (some 0)
  · exact gap_nil

/-- The members of a printed object are read back. -/
theorem objectLoop_print (hclose : Gap close) (rest : Bytes) (ms : List (Bytes × Conf))
    (m : Bytes × Conf) (seen : List Bytes) (left : ℕ) (c : UInt8) (g : Bytes) (more : Bool)
    (hg : Gap g) (hleft : ms.length ≤ left) (hnodup : ((m :: ms).map (·.1)).Nodup)
    (hm : ∀ x ∈ m :: ms, x.1 ∉ seen ∧ StringFits x.1 ∧ ReadsBack parseValue x.2) :
    ∃ ms', objectLoop parseValue seen (left + 1) (c :: (g ++ ((printMembers inner more
        (m :: ms)).1 ++ (close ++ 0x7D :: rest)))) = .ok (ms', rest) ∧
      List.Forall₂ SameMember (m :: ms) ms' := by
  induction ms generalizing m seen left c g more with
  | nil =>
    obtain ⟨name, v⟩ := m
    obtain ⟨hseen, hfits, hback⟩ := hm (name, v) (by simp)
    obtain ⟨v', hparse, hsame⟩ := parseMember_print hfits hseen (gap_space inner) hback inner more
      (terminated_gap hclose (show endsNumber 0x7D = true by decide) rest)
    refine ⟨[(name, v')], ?_, .cons ⟨rfl, hsame⟩ .nil⟩
    have htext : g ++ ((printMembers inner more [(name, v)]).1 ++ (close ++ 0x7D :: rest)) =
        (g ++ prettyIndent inner) ++ (jsonPrintString name ++ 0x3A ::
          ((if inner.isSome then [0x20] else []) ++
            ((jsonPrint inner more v).1 ++ (close ++ 0x7D :: rest)))) := by
      simp [printMembers]
    rw [htext]
    exact objectLoop_close (gap_append hg (gap_indent inner)) hparse
      (jsonSkipSpace_gap hclose (by decide) (by decide) rest)
  | cons x ms ih => ?_
  obtain ⟨name, v⟩ := m
  obtain ⟨left, rfl⟩ : ∃ n, left = n + 1 := ⟨left - 1, by simp at hleft; omega⟩
  obtain ⟨hseen, hfits, hback⟩ := hm (name, v) (by simp)
  rw [map_cons, nodup_cons] at hnodup
  -- the names behind this one are new once it is in the hash
  have hmore : ∀ y ∈ x :: ms, y.1 ∉ name :: seen ∧ StringFits y.1 ∧ ReadsBack parseValue y.2 := by
    intro y hy
    obtain ⟨hy1, hy2⟩ := hm y (mem_cons_of_mem _ hy)
    refine ⟨?_, hy2⟩
    rintro (_ | ⟨_, hmem⟩)
    · exact hnodup.1 (mem_map.mpr ⟨y, hy, rfl⟩)
    · exact hy1 hmem
  have hlen : ms.length ≤ left := by simpa using hleft
  obtain ⟨ms', hloop, hsame'⟩ := ih x (name :: seen) left 0x2C _
    (if inner.isSome then false else (jsonPrint inner more v).2)
    (gap_append (gap_newline inner)
      (gap_emptyLine (inner.isSome ∧ (jsonPrint inner more v).2 = true))) hlen hnodup.2 hmore
  obtain ⟨v', hparse, hsame⟩ := parseMember_print hfits hseen (gap_space inner) hback inner more
    (terminated_cons (show endsNumber 0x2C = true by decide) _)
  refine ⟨(name, v') :: ms', ?_, .cons ⟨rfl, hsame⟩ hsame'⟩
  have htext : g ++ ((printMembers inner more ((name, v) :: x :: ms)).1 ++
      (close ++ 0x7D :: rest)) =
      (g ++ prettyIndent inner) ++ (jsonPrintString name ++ 0x3A ::
        ((if inner.isSome then [0x20] else []) ++ ((jsonPrint inner more v).1 ++
          0x2C :: ((prettyNewline inner ++
            (if inner.isSome ∧ (jsonPrint inner more v).2 = true then jsonNewline else [])) ++
            ((printMembers inner (if inner.isSome then false else (jsonPrint inner more v).2)
              (x :: ms)).1 ++ (close ++ 0x7D :: rest)))))) := by
    simp [printMembers]
  rw [htext]
  exact objectLoop_comma (gap_append hg (gap_indent inner)) hparse
    (jsonSkipSpace_gap gap_nil (by decide) (by decide) _) hloop

end Elements

/-! ### Values -/

section Values

variable {strtod : Bytes → Strtod} {hash : HashOrder}

theorem jsonParseValue_quote {s : Bytes} (h : jsonParseString (0x22 :: p) = .ok (s, q))
    (depth : ℕ) : jsonParseValue strtod hash depth (0x22 :: p) = .ok (.string s, q) := by
  rw [jsonParseValue.eq_def]
  show (jsonParseString (0x22 :: p)).bind (fun r => .ok (Conf.string r.1, r.2)) = _
  rw [h]
  rfl

variable {depth : ℕ} {es : List Conf}

theorem jsonParseValue_bracket
    (h : arrayLoop (jsonParseValue strtod hash depth) jsonMaxElements (0x5B :: p) = .ok (es, q)) :
    jsonParseValue strtod hash (depth + 1) (0x5B :: p) = .ok (.array es, q) := by
  rw [jsonParseValue.eq_def]
  show (arrayLoop (jsonParseValue strtod hash depth) jsonMaxElements (0x5B :: p)).bind
    (fun r => .ok (Conf.array r.1, r.2)) = _
  rw [h]
  rfl

theorem jsonParseValue_brace
    (h : objectLoop (jsonParseValue strtod hash depth) [] jsonMaxElements (0x7B :: p) = .ok (ms, q)) :
    jsonParseValue strtod hash (depth + 1) (0x7B :: p) = .ok (.object (hash.order ms), q) := by
  rw [jsonParseValue.eq_def]
  show (objectLoop (jsonParseValue strtod hash depth) [] jsonMaxElements (0x7B :: p)).bind
    (fun r => .ok (Conf.object (hash.order r.1), r.2)) = _
  rw [h]
  rfl

variable {rest : Bytes}

theorem jsonParseValue_number {w : Bytes} (hhead : NumberHead w)
    (hnum : jsonParseNumber strtod w = .ok (v, [])) (depth : ℕ) (hrest : Terminated rest) :
    jsonParseValue strtod hash depth (w ++ rest) = .ok (v, rest) := by
  have happ := (jsonParseNumber_append strtod hrest).mpr hnum
  have hvalue : ∀ ch, isDigit ch = true →
      jsonNumberValue strtod ch (w ++ rest) = .ok (v, rest) := by
    intro ch hch
    rw [jsonNumberValue, if_pos hch, happ]
    cases rest with
    | nil => rfl
    | cons c rest => simp [bind, Except.bind, hrest c rfl]
  have hdigit : ∀ c : UInt8, isDigit c = true → c ≠ 0x7B ∧ c ≠ 0x5B ∧ c ≠ 0x22 ∧ c ≠ 0x74 ∧
      c ≠ 0x66 ∧ c ≠ 0x6E ∧ c ≠ 0x2D := by grind [isDigit]
  rcases hhead with ⟨ch, p, rfl, hch⟩ | ⟨ch, p, rfl, hch⟩
  · obtain ⟨h1, h2, h3, h4, h5, h6, h7⟩ := hdigit ch hch
    rw [jsonParseValue.eq_def]
    simp only [cons_append, h1, h2, h3, h4, h5, h6, h7, if_false]
    exact hvalue ch hch
  rw [jsonParseValue.eq_def]
  exact hvalue ch hch

theorem jsonParseValue_scalar (hv : v.ScalarValid strtod) (depth : ℕ) (pretty : Option ℕ)
    (more : Bool) (hrest : Terminated rest) :
    jsonParseValue strtod hash depth ((jsonPrint pretty more v).1 ++ rest) = .ok (v, rest) := by
  cases v with
  | null =>
    rw [jsonParseValue.eq_def]
    rfl
  | boolean b =>
    cases b <;>
    · rw [jsonParseValue.eq_def]
      rfl
  | integer | number => exact jsonParseValue_number hv.1 hv.2 depth hrest
  | string s =>
    exact jsonParseValue_quote (jsonParseString_print hv rest) depth
  | array | object => exact hv.elim

theorem head_of_scalar (hv : v.ScalarValid strtod) (pretty : Option ℕ) (more : Bool) :
    ∃ c t, (jsonPrint pretty more v).1 = c :: t ∧ valueHead c = true := by
  have hnumber : ∀ {w : Bytes}, NumberHead w → ∃ c t, w = c :: t ∧ valueHead c = true := by
    rintro w (⟨ch, p, rfl, hch⟩ | ⟨ch, p, rfl, -⟩)
    · exact ⟨ch, p, rfl, valueHead_of_isDigit hch⟩
    · exact ⟨0x2D, ch :: p, rfl, rfl⟩
  cases v with
  | null => exact ⟨_, _, rfl, rfl⟩
  | boolean b => cases b <;> exact ⟨_, _, rfl, rfl⟩
  | integer | number => exact hnumber hv.1
  | string s => exact ⟨_, _, rfl, rfl⟩
  | array | object => exact hv.elim

theorem head_of_container (hv : v.isContainer = true) (pretty : Option ℕ)
    (more : Bool) : ∃ c t, (jsonPrint pretty more v).1 = c :: t ∧ valueHead c = true := by
  cases v with
  | array es => cases es <;> exact ⟨0x5B, _, rfl, rfl⟩
  | object ms => cases ms <;> exact ⟨0x7B, _, rfl, rfl⟩
  | null | boolean b | integer w | number w | string s => cases hv

/-- Elements that are equal one by one make equal arrays. -/
theorem same_array {es' : List Conf} (h : List.Forall₂ Conf.Same es es') :
    (Conf.array es).Same (.array es') := by
  refine .array h.length_eq ?_
  induction h with
  | nil =>
    intro i e e' he
    simp at he
  | cons hhead _ ih => ?_
  intro i e e' he he'
  cases i with
  | zero =>
    cases he
    cases he'
    exact hhead
  | succ i => exact ih i e e' he he'

variable {ms' : List (Bytes × Conf)}

section

variable (h : List.Forall₂ SameMember ms ms')
include h

theorem names_of_sameMember : ms.map (·.1) = ms'.map (·.1) := by
  induction h with
  | nil => rfl
  | cons hhead _ ih => rw [map_cons, map_cons, hhead.1, ih]

theorem same_of_mem :
    (ms.map (·.1)).Nodup → ∀ name v v', (name, v) ∈ ms → (name, v') ∈ ms' → v.Same v' := by
  induction h with
  | nil =>
    intro _ name v v' hv
    simp at hv
  | @cons m m' l l' hhead hl ih => ?_
  intro hnodup name v v' hv hv'
  rw [map_cons, nodup_cons] at hnodup
  have hfresh : ∀ {n : Bytes} {w : Conf}, (n, w) ∈ l → n ≠ m.1 := by
    rintro n w hmem rfl
    exact hnodup.1 (mem_map.mpr ⟨_, hmem, rfl⟩)
  have hfresh' : ∀ {n : Bytes} {w : Conf}, (n, w) ∈ l' → n ≠ m.1 := by
    rintro n w hmem rfl
    exact hnodup.1 (names_of_sameMember hl ▸ mem_map.mpr ⟨_, hmem, rfl⟩)
  rcases mem_cons.mp hv with rfl | hv
  · rcases mem_cons.mp hv' with rfl | hv'
    · exact hhead.2
    · exact absurd rfl (hfresh' hv')
  rcases mem_cons.mp hv' with rfl | hv'
  · exact absurd hhead.1.symm (hfresh hv)
  · exact ih hnodup.2 name v v' hv hv'

/-- Members that are equal one by one make equal objects, in any order. -/
theorem same_object (hnodup : (ms.map (·.1)).Nodup) :
    (Conf.object ms).Same (.object (hash.order ms')) := by
  refine .object (names_of_sameMember h ▸ ((hash.perm ms').map _).symm) ?_
  intro name v v' hv hv'
  exact same_of_mem h hnodup name v v' hv ((hash.perm ms').mem_iff.mp hv')

end

/-- **What is valid is read back.** -/
theorem readsBack_of_valid : ∀ (depth : ℕ) {v : Conf}, v.Valid strtod depth →
    ReadsBack (jsonParseValue strtod hash depth) v := by
  have hscalar : ∀ (depth : ℕ) {v : Conf}, v.ScalarValid strtod → v.isContainer = false →
      ReadsBack (jsonParseValue strtod hash depth) v := fun depth v hv hc =>
    ⟨head_of_scalar hv, fun pretty more rest hrest =>
      ⟨v, jsonParseValue_scalar hv depth pretty more hrest, .scalar hc⟩⟩
  intro depth
  induction depth with
  | zero =>
    intro v hv
    cases v with
    | array | object => exact hv.elim
    | null | boolean b | integer w | number w | string s => exact hscalar 0 hv rfl
  | succ depth ih => ?_
  intro v hv
  cases v with
  | array es =>
    obtain ⟨hlen, hes⟩ := hv
    refine ⟨head_of_container rfl, fun pretty more rest hrest => ?_⟩
    cases es with
    | nil =>
      refine ⟨.array [], ?_, same_array .nil⟩
      rw [jsonParseValue.eq_def]
      rfl
    | cons e es => ?_
    have hleft : es.length ≤ jsonMaxElements - 1 := by
      simp only [length_cons] at hlen
      omega
    obtain ⟨es', hloop, hsame⟩ := arrayLoop_print
      (gap_append (gap_newline pretty) (gap_indent pretty)) rest es e (jsonMaxElements - 1) 0x5B
      _ more (jsonPrint (pretty.map (· + 1)) more e).2
      (gap_append (gap_newline (pretty.map (· + 1))) (gap_indent (pretty.map (· + 1)))) hleft
      (ih (hes e (by simp))) (fun x hx => ih (hes x (mem_cons_of_mem _ hx)))
    refine ⟨.array es', ?_, same_array hsame⟩
    simp only [jsonPrint, cons_append, append_assoc, nil_append] at hloop ⊢
    exact jsonParseValue_bracket hloop
  | object ms =>
    obtain ⟨hlen, hnodup, hms⟩ := hv
    refine ⟨head_of_container rfl, fun pretty more rest hrest => ?_⟩
    cases ms with
    | nil =>
      refine ⟨.object (hash.order []), ?_, same_object .nil (by simp)⟩
      exact jsonParseValue_brace rfl
    | cons m ms => ?_
    have hleft : ms.length ≤ jsonMaxElements - 1 := by
      simp only [length_cons] at hlen
      omega
    obtain ⟨ms', hloop, hsame⟩ := objectLoop_print
      (gap_append (gap_newline pretty) (gap_indent pretty)) rest ms m [] (jsonMaxElements - 1)
      0x7B _ more (gap_newline (pretty.map (· + 1))) hleft hnodup
      (fun x hx => ⟨by simp, (hms x hx).1, ih (hms x hx).2⟩)
    refine ⟨.object (hash.order ms'), ?_, same_object hsame hnodup⟩
    simp only [jsonPrint, cons_append, append_assoc, nil_append] at hloop ⊢
    exact jsonParseValue_brace hloop
  | null | boolean b | integer w | number w | string s => exact hscalar (depth + 1) hv rfl

theorem valid_of_confJsonParse {text : Bytes}
    (h : confJsonParse strtod hash text = .ok v) : v.Valid strtod jsonMaxDepth := by
  rw [confJsonParse] at h
  split at h
  · cases h
  next ch p _ =>
  obtain ⟨r, hv, h⟩ := bind_eq_ok h
  dsimp only at h
  split at h
  · cases h
    exact valid_of_parse hv
  · cases h

/-- A value within the limits is read back as a payload. -/
theorem confJsonParse_of_valid (h : v.Valid strtod jsonMaxDepth) (indented : Bool) :
    ∃ v', confJsonParse strtod hash (confJsonPrint indented v) = .ok v' ∧ v.Same v' := by
  have hback : ReadsBack (jsonParseValue strtod hash jsonMaxDepth) v := readsBack_of_valid _ h
  generalize hpretty : (if indented then some 0 else none : Option ℕ) = pretty
  obtain ⟨v', hparse, hsame⟩ := hback.value pretty false [] terminated_nil
  obtain ⟨c, t, htext, hc⟩ := hback.head pretty false
  obtain ⟨hspace, hslash, -⟩ := not_space_of_valueHead hc
  refine ⟨v', ?_, hsame⟩
  rw [confJsonPrint, hpretty, confJsonParse, htext,
    show jsonSkipSpace (c :: t) = c :: t from jsonSkipSpace_gap gap_nil hspace hslash t]
  rw [htext, append_nil] at hparse
  simp only [hparse, bind, Except.bind]
  rfl

end Values

/-- **Parse, print, parse.**  What the parser accepts can be printed in either
form, and the printed text is accepted and gives an equal value. -/
theorem confJsonParse_print (strtod : Bytes → Strtod) (hash : HashOrder) {text : Bytes} {v : Conf}
    (h : confJsonParse strtod hash text = .ok v) (indented : Bool) :
    ∃ v', confJsonParse strtod hash (confJsonPrint indented v) = .ok v' ∧ v.Same v' :=
  confJsonParse_of_valid (valid_of_confJsonParse h) indented

/-- The payload `"\u000a"`, which is printed as `"\n"`. -/
theorem confJsonParse_print_newline :
    let strtod : Bytes → Strtod := fun _ => .whole
    let hash : HashOrder := ⟨id, fun _ => .refl _⟩
    confJsonParse strtod hash (str "\"\\u000a\"") = .ok (.string [0x0A]) ∧
      ∃ v', confJsonParse strtod hash (confJsonPrint true (.string [0x0A])) = .ok v' ∧
        (Conf.string [0x0A]).Same v' := by
  intro strtod hash
  have hitems : ∀ item ∈ [StrItem.encoded 0x30 0x30 0x30 0x61], item.Ok := by decide
  have hfit : itemSize [StrItem.encoded 0x30 0x30 0x30 0x61] ≤ confMaxString := by
    rw [show itemSize [StrItem.encoded 0x30 0x30 0x30 0x61] = 3 from rfl, confMaxString, int32Max]
    omega
  have hs : jsonParseString (0x22 :: str "\\u000a\"") = .ok ([0x0A], []) :=
    (jsonParseString_items hitems hfit []).trans rfl
  have h : confJsonParse strtod hash (str "\"\\u000a\"") = .ok (.string [0x0A]) := by
    rw [confJsonParse]
    show (jsonParseValue strtod hash jsonMaxDepth (0x22 :: str "\\u000a\"")).bind _ = _
    rw [jsonParseValue_quote hs]
    rfl
  exact ⟨h, confJsonParse_print strtod hash h true⟩

end FreeUnit
