/-
The steps of a route: `nxt_http_route_handler`.

A step has a condition and tests; a test is a rule, an address rule or a table of
rules for headers, arguments or cookies, and each of them says yes, says no or
fails.

* `routeHandler` — the step whose action is taken;
* `StepHolds` — the meaning of a step, in and and or; it depends on how names are
  compared and how much of a value is read;
* `routeHandler_clipped` — the source takes the first step that holds, when names
  are compared as its fields of sixteen bits have them;
* `routeHandler_iff` — when that is the first step that holds.
-/
import FreeUnit.NameValues
import FreeUnit.ParsedFields
import FreeUnit.RouteRule

namespace FreeUnit.Route

open List

/-! ### The source -/

inductive NameObject where
  | header
  | argument
  | cookie
  deriving DecidableEq

def NameObject.kind : NameObject → PatternKind
  | .header => .headers
  | .argument => .arguments
  | .cookie => .cookies

def NameObject.key : NameObject → Bytes → Bytes
  | .header, name => name.map lowcase
  | .argument, name | .cookie, name => name

/-- A rule with a name: the bytes at `u.name.start`, and the hash and the length
beside them, of sixteen bits each. -/
structure NamedRule (ρ : Type) where
  object : NameObject
  name : Bytes
  hash : UInt16
  length : UInt16
  patterns : List (Pattern ρ)
  hash_eq : hash = nameHash (object.key name)
  length_eq : length = UInt16.ofNat name.length

/-- `nxt_http_route_rule_name_create`, with the name decoded by
`nxt_http_field_hash`. -/
def ruleNameCreate {ρ : Type} (regex : Regex ρ) (qsort : Qsort Bytes) (object : NameObject)
    (name : Bytes) (cv : List Bytes) : Option (NamedRule ρ) :=
  (ruleCreate regex qsort object.kind cv).bind fun patterns =>
    (decodeStr object.kind.encoding name).map fun name =>
      { object := object, name := name, hash := nameHash (object.key name),
        length := UInt16.ofNat name.length, patterns := patterns, hash_eq := rfl, length_eq := rfl }

/-- The string fields of a request that a rule can point to. -/
inductive StringObject where
  | host
  | path
  | method

/-- `nxt_http_route_rule_t`; of a scheme rule, the length of its text. -/
inductive Rule (ρ : Type) where
  | named (rule : NamedRule ρ)
  | scheme (length : ℕ)
  | query (patterns : List (Pattern ρ))
  | string (object : StringObject) (patterns : List (Pattern ρ))

/-- `nxt_http_route_test_t` -/
inductive Test (ρ : Type) where
  | table (rulesets : List (List (Rule ρ)))
  | source (rule : List AddrPattern)
  | destination (rule : List AddrPattern)
  | rule (rule : Rule ρ)

/-- What a route reads of a request.  The fields are those of the parser, which
takes names of at most 255 bytes and without a NUL. -/
structure Request where
  host : Option Bytes
  path : Option Bytes
  method : Option Bytes
  args : Option Bytes
  fields : List HttpField
  tls : Bool
  remote : Sockaddr
  loc : Sockaddr
  wellHashed : ∀ f ∈ fields, f.WellHashed
  names : ∀ f ∈ fields, f.name.length ≤ httpMaxFieldName ∧ 0 ∉ f.name

/-- `nxt_tstr_cond_t`: the text of the expression for a request, or a failure. -/
structure Cond where
  expr : Option (Request → Option Bytes)
  negate : Bool

/-- `nxt_http_route_match_t`, its action apart. -/
structure Step (ρ : Type) where
  condition : Cond
  tests : List (Test ρ)

/-- The texts that `nxt_http_cond_value` takes for false. -/
def falsy (s : Bytes) : Bool :=
  s = [] || s = str "0" || s = str "false" || s = str "null" || s = str "undefined"

def condValue (r : Request) (cond : Cond) : Option Bool :=
  match cond.expr with
  | none => some (cond.negate ^^ true)
  | some expr => (expr r).map fun s => cond.negate ^^ !falsy s

/-- The bytes of a value that its length of 32 bits counts. -/
def clip (value : Bytes) : Bytes := value.take (UInt32.ofNat value.length).toNat

/-- `nxt_strncasecmp(s1, s2, length) == 0` -/
def strncasecmpEq : Bytes → Bytes → ℕ → Bool
  | c1 :: s1, c2 :: s2, n + 1 =>
    if lowcase c1 ≠ lowcase c2 then false else if c1 = 0 then true else strncasecmpEq s1 s2 n
  | _, _, _ => true

section Handler

variable {ρ : Type} (regex : Regex ρ) (r : Request)

/-- The loop over fields, arguments or cookies: each element of the name is
tested. -/
def testEach {α : Type} (same : α → Bool) (value : α → Bytes) (patterns : List (Pattern ρ)) :
    Bool → List α → Option Bool
  | ret, [] => some ret
  | ret, x :: xs =>
    if same x then
      match testRule regex patterns (some (value x)) with
      | none => none
      | some false => some false
      | some true => testEach same value patterns true xs
    else testEach same value patterns ret xs

/-- The comparison of `nxt_http_route_header`. -/
def sameField (rule : NamedRule ρ) (f : HttpField) : Bool :=
  rule.hash == f.hash && rule.length.toNat == f.name.length
    && strncasecmpEq rule.name f.name f.name.length

/-- The comparison of `nxt_http_route_test_argument` and
`nxt_http_route_test_cookie`. -/
def sameName (rule : NamedRule ρ) (nv : NameValue) : Bool :=
  rule.hash == nv.hash && rule.length == nv.nameLength
    && rule.name.take nv.nameLength.toNat == nv.name.take nv.nameLength.toNat

def routeHeader (rule : NamedRule ρ) : Option Bool :=
  testEach regex (sameField rule) (fun f => clip f.value) rule.patterns false r.fields

/-- `nxt_http_route_test_argument` and `nxt_http_route_test_cookie` -/
def testNameValues (rule : NamedRule ρ) (array : List NameValue) : Option Bool :=
  testEach regex (sameName rule) (fun nv => nv.value.take nv.valueLength.toNat) rule.patterns false
    array

/-- `NXT_HTTP_COOKIE_HASH` and the name beside it. -/
def isCookie (f : HttpField) : Bool :=
  f.hash == nameHash (str "cookie") && f.name.length == 6
    && strncasecmpEq f.name (str "Cookie") 6

def cookiesParse : List NameValue :=
  (r.fields.filter isCookie).flatMap fun f => cookieParse (clip f.value)

/-- `nxt_http_route_rule`; a null pointer to a string is no match. -/
def routeRule : Rule ρ → Option Bool
  | .named rule =>
    match rule.object with
    | .header => routeHeader regex r rule
    | .argument => testNameValues regex rule (argumentsParse r.args).1
    | .cookie => testNameValues regex rule (cookiesParse r)
  | .scheme length => some (r.tls == (length == 5))
  | .query patterns => testRule regex patterns (argumentsParse r.args).2
  | .string .host patterns => testRule regex patterns r.host
  | .string .path patterns =>
    if r.path = none then some false else testRule regex patterns r.path
  | .string .method patterns =>
    if r.method = none then some false else testRule regex patterns r.method

def routeRuleset : List (Rule ρ) → Option Bool
  | [] => some true
  | rule :: rules =>
    match routeRule regex r rule with
    | some true => routeRuleset rules
    | ret => ret

/-- The loop of `nxt_http_route_table`. -/
def tableLoop : Bool → List (List (Rule ρ)) → Option Bool
  | ret, [] => some ret
  | _, ruleset :: rulesets =>
    match routeRuleset regex r ruleset with
    | some false => tableLoop false rulesets
    | ret => ret

def routeTable (rulesets : List (List (Rule ρ))) : Option Bool := tableLoop regex r true rulesets

def routeTest : Test ρ → Option Bool
  | .table rulesets => routeTable regex r rulesets
  | .source rule => some (addrRule rule r.remote)
  | .destination rule => some (addrRule rule r.loc)
  | .rule rule => routeRule regex r rule

/-- The loop of `nxt_http_route_match`. -/
def testLoop : List (Test ρ) → Option Bool
  | [] => some true
  | test :: tests =>
    match routeTest regex r test with
    | some true => testLoop tests
    | ret => ret

/-- `nxt_http_route_match`: whether the action is returned, or an error. -/
def routeMatch (step : Step ρ) : Option Bool :=
  match condValue r step.condition with
  | some true => testLoop regex r step.tests
  | ret => ret

/-- `nxt_http_route_handler` from step `i` on: the step whose action is taken,
`some none` for the answer 404 and `none` for an error. -/
def handlerFrom : ℕ → List (Step ρ) → Option (Option ℕ)
  | _, [] => some none
  | i, step :: steps =>
    match routeMatch regex r step with
    | none => none
    | some true => some (some i)
    | some false => handlerFrom (i + 1) steps

def routeHandler (steps : List (Step ρ)) : Option (Option ℕ) := handlerFrom regex r 0 steps

end Handler

/-! ### The meaning of a route -/

/-- How names are compared, and how much of a value is read. -/
structure Reading where
  same : Bytes → Bytes → Prop
  value : Bytes → Bytes

def whole : Reading := ⟨Eq, id⟩

/-- Names agree in their hash, in sixteen bits of their length, and in that many
bytes. -/
structure Clipped (a b : Bytes) : Prop where
  hash : nameHash a = nameHash b
  length : a.length % 65536 = b.length % 65536
  bytes : a.take (b.length % 65536) = b.take (b.length % 65536)

/-- Names and values as far as the elements of the source have them. -/
def clipped : Reading := ⟨Clipped, clip⟩

section Meaning

variable {ρ : Type} (regex : Regex ρ) (rd : Reading) (r : Request)

def occurrences : NameObject → List (Bytes × Bytes)
  | .header => r.fields.map fun f => (f.name.map lowcase, f.value)
  | .argument => (r.args.elim [] arguments).map fun nv => (nv.name, nv.value)
  | .cookie =>
    ((r.fields.filter fun f => f.name.map lowcase = str "cookie").flatMap fun f =>
      ((rd.value f.value).splitOn 0x3B).filterMap cookieOf).map fun nv => (nv.name, nv.value)

/-- The name occurs and every occurrence is accepted by the patterns. -/
def NamedHolds (rule : NamedRule ρ) : Prop :=
  (∃ p ∈ occurrences rd r rule.object, rd.same (rule.object.key rule.name) p.1) ∧
    ∀ p ∈ occurrences rd r rule.object, rd.same (rule.object.key rule.name) p.1 →
      testRule regex rule.patterns (some (rd.value p.2)) = some true

def RuleHolds : Rule ρ → Prop
  | .named rule => NamedHolds regex rd r rule
  | .scheme length => r.tls = (length == 5)
  | .query patterns => testRule regex patterns (argumentsParse r.args).2 = some true
  | .string .host patterns => testRule regex patterns r.host = some true
  | .string .path patterns => r.path ≠ none ∧ testRule regex patterns r.path = some true
  | .string .method patterns => r.method ≠ none ∧ testRule regex patterns r.method = some true

/-- An object holds when each of its rules does, an array when it is empty or some
object holds. -/
def TestHolds : Test ρ → Prop
  | .table rulesets =>
    rulesets = [] ∨ ∃ ruleset ∈ rulesets, ∀ rule ∈ ruleset, RuleHolds regex rd r rule
  | .source rule => addrRule rule r.remote = true
  | .destination rule => addrRule rule r.loc = true
  | .rule rule => RuleHolds regex rd r rule

def StepHolds (step : Step ρ) : Prop :=
  condValue r step.condition = some true ∧ ∀ test ∈ step.tests, TestHolds regex rd r test

/-- The answer of the first step that holds, or not found. -/
def Selected (steps : List (Step ρ)) : Option ℕ → Prop
  | some i => (∃ step ∈ steps[i]?, StepHolds regex rd r step) ∧
      ∀ j < i, ∀ step ∈ steps[j]?, ¬ StepHolds regex rd r step
  | none => ∀ step ∈ steps, ¬ StepHolds regex rd r step

end Meaning

/-! ### Names -/

theorem ruleNameCreate_name {ρ : Type} {regex : Regex ρ} {qsort : Qsort Bytes} {object : NameObject}
    {name : Bytes} {cv : List Bytes} {rule : NamedRule ρ}
    (h : ruleNameCreate regex qsort object name cv = some rule) :
    rule.object = object ∧ decodeStr object.kind.encoding name = some rule.name ∧
      ruleCreate regex qsort object.kind cv = some rule.patterns := by
  obtain ⟨patterns, hpatterns, h⟩ := Option.bind_eq_some_iff.mp h
  obtain ⟨decoded, hdecoded, rfl⟩ := Option.map_eq_some_iff.mp h
  exact ⟨rfl, hdecoded, hpatterns⟩

theorem Clipped.refl (a : Bytes) : Clipped a a := ⟨rfl, rfl, rfl⟩

theorem Clipped.eq {a b : Bytes} (h : Clipped a b) (ha : a.length < 65536) (hb : b.length < 65536) :
    a = b := by
  have hlen := h.length
  have hbytes := h.bytes
  rw [Nat.mod_eq_of_lt ha, Nat.mod_eq_of_lt hb] at hlen
  rw [Nat.mod_eq_of_lt hb, take_length, ← hlen, take_length] at hbytes
  exact hbytes

theorem strncasecmpEq_iff {s1 s2 : Bytes} {n : ℕ} (h1 : n ≤ s1.length) (h2 : s2.length = n)
    (h0 : 0 ∉ s2) : strncasecmpEq s1 s2 n = true ↔ (s1.take n).map lowcase = s2.map lowcase := by
  have hnul : ∀ c1 c2 : UInt8, lowcase c1 = lowcase c2 → c1 = 0 → c2 = 0 := by
    have hlow : ∀ c : UInt8, lowcase 0 = lowcase c → c = 0 := by decide +kernel
    rintro c1 c2 h rfl
    exact hlow c2 h
  induction n generalizing s1 s2 with
  | zero =>
    obtain rfl := length_eq_zero_iff.mp h2
    simp [strncasecmpEq]
  | succ n ih => ?_
  match s1, s2, h1, h2, h0 with
  | c1 :: s1, c2 :: s2, h1, h2, h0 =>
    rw [mem_cons, not_or] at h0
    rw [strncasecmpEq, take_succ_cons, map_cons, map_cons, cons.injEq]
    split
    case isTrue hne => exact iff_of_false nofun fun h => hne h.1
    case isFalse heq =>
      rw [not_not] at heq
      rw [if_neg fun hc => h0.1 (hnul c1 c2 heq hc).symm]
      exact (ih (Nat.le_of_succ_le_succ h1) (Nat.succ.inj h2) h0.2).trans (and_iff_right heq).symm

theorem toNat_ofNat_length (a : Bytes) : (UInt16.ofNat a.length).toNat = a.length % 65536 :=
  UInt16.toNat_ofNat'

theorem ofNat_length_eq_iff {a b : Bytes} :
    UInt16.ofNat a.length = UInt16.ofNat b.length ↔ a.length % 65536 = b.length % 65536 := by
  rw [← UInt16.toNat_inj, toNat_ofNat_length, toNat_ofNat_length]

section Compare

variable {ρ : Type} {regex : Regex ρ} {r : Request} {rule : NamedRule ρ}

theorem sameName_iff (hobject : rule.object ≠ .header) (name value : Bytes) :
    sameName rule (.ofPair name value) = true ↔ Clipped (rule.object.key rule.name) name := by
  have hkey : rule.object.key rule.name = rule.name := by
    cases h : rule.object with
    | header => exact absurd h hobject
    | argument | cookie => rfl
  simp only [sameName, NameValue.ofPair, Bool.and_eq_true, beq_iff_eq, rule.hash_eq, rule.length_eq,
    ofNat_length_eq_iff, toNat_ofNat_length, hkey]
  exact ⟨fun ⟨⟨h1, h2⟩, h3⟩ => ⟨h1, h2, h3⟩, fun ⟨h1, h2, h3⟩ => ⟨⟨h1, h2⟩, h3⟩⟩

theorem sameField_iff (hobject : rule.object = .header) {f : HttpField} (hf : f ∈ r.fields) :
    sameField rule f = true ↔ Clipped (rule.object.key rule.name) (f.name.map lowcase) := by
  have hhash : f.hash = nameHash (f.name.map lowcase) := r.wellHashed f hf
  obtain ⟨hlen, hnul⟩ := r.names f hf
  rw [httpMaxFieldName] at hlen
  have hshort : f.name.length % 65536 = f.name.length := Nat.mod_eq_of_lt (by omega)
  have hkey : rule.object.key rule.name = rule.name.map lowcase := by
    rw [hobject]
    rfl
  simp only [sameField, Bool.and_eq_true, beq_iff_eq, rule.hash_eq, rule.length_eq,
    toNat_ofNat_length, hkey, hhash]
  constructor
  · rintro ⟨⟨h1, h2⟩, h3⟩
    have hle : f.name.length ≤ rule.name.length := h2 ▸ Nat.mod_le _ _
    have hbytes := (strncasecmpEq_iff hle rfl hnul).mp h3
    refine ⟨h1, ?_, ?_⟩
    · rw [length_map, length_map, h2, hshort]
    · rw [length_map, hshort, ← map_take, hbytes,
        take_of_length_le (l := f.name.map lowcase) (by simp)]
  · rintro ⟨h1, h2, h3⟩
    rw [length_map, length_map, hshort] at h2
    rw [length_map, hshort, ← map_take, take_of_length_le (l := f.name.map lowcase) (by simp)] at h3
    have hle : f.name.length ≤ rule.name.length := h2 ▸ Nat.mod_le _ _
    exact ⟨⟨h1, h2⟩, (strncasecmpEq_iff hle rfl hnul).mpr h3⟩

/-- The fields of cookies are found by their name. -/
theorem isCookie_iff {f : HttpField} (hf : f ∈ r.fields) :
    isCookie f = true ↔ f.name.map lowcase = str "cookie" := by
  have hhash : f.hash = nameHash (f.name.map lowcase) := r.wellHashed f hf
  have hlow : (str "Cookie").map lowcase = str "cookie" := by decide
  have hsix : (str "Cookie").length = 6 := by decide
  simp only [isCookie, Bool.and_eq_true, beq_iff_eq]
  constructor
  · rintro ⟨⟨-, hlen⟩, hcmp⟩
    have hbytes := (strncasecmpEq_iff hlen.ge hsix (by decide)).mp hcmp
    rwa [take_of_length_le hlen.le, hlow] at hbytes
  · intro hname
    have hlen : f.name.length = 6 := by
      rw [← length_map (f := lowcase), hname]
      decide
    refine ⟨⟨hhash.trans (congrArg nameHash hname), hlen⟩, ?_⟩
    rw [strncasecmpEq_iff hlen.ge hsix (by decide), take_of_length_le hlen.le, hlow]
    exact hname

end Compare

/-! ### The loops -/

variable {b : Bool} {res : Option ℕ}

section Loops

variable {ρ : Type} {regex : Regex ρ} {r : Request}

/-- **The loop over occurrences**: what it says, when it does not fail. -/
theorem testEach_iff {α : Type} {same : α → Bool} {value : α → Bytes} {patterns : List (Pattern ρ)}
    {ret : Bool} {xs : List α} (h : testEach regex same value patterns ret xs = some b) :
    b = true ↔ (ret = true ∨ ∃ x ∈ xs, same x = true) ∧
      ∀ x ∈ xs, same x = true → testRule regex patterns (some (value x)) = some true := by
  induction xs generalizing ret with
  | nil =>
    cases h
    simp
  | cons x xs ih => ?_
  rw [testEach] at h
  simp only [forall_mem_cons, exists_mem_cons_iff]
  split at h
  case isFalse hx =>
    rw [ih h]
    simp [hx]
  case isTrue hx =>
    cases htest : testRule regex patterns (some (value x)) with
    | none => simp [htest] at h
    | some ok => ?_
    rw [htest] at h
    cases ok with
    | false =>
      cases h
      simp [hx]
    | true =>
      rw [ih h]
      simp [hx]

theorem argumentOf_ofPair {piece : Bytes} {nv : NameValue} (h : argumentOf piece = some nv) :
    ∃ name value, nv = .ofPair name value := by
  rw [argumentOf] at h
  split at h
  · cases h
  · exact ⟨_, _, (Option.some.inj h).symm⟩

theorem cookieOf_ofPair {piece : Bytes} {nv : NameValue} (h : cookieOf piece = some nv) :
    ∃ name value, nv = .ofPair name value := by
  rw [cookieOf] at h
  split at h
  · exact ⟨_, _, (Option.some.inj h).symm⟩
  · cases h

/-- Arguments and cookies, whose elements carry what belongs to their names. -/
theorem testNameValues_iff {rule : NamedRule ρ} (hobject : rule.object ≠ .header)
    {array : List NameValue} (harray : ∀ nv ∈ array, ∃ name value, nv = .ofPair name value)
    (h : testNameValues regex rule array = some b) : b = true ↔
      (∃ p ∈ array.map fun nv => (nv.name, nv.value), Clipped (rule.object.key rule.name) p.1) ∧
      ∀ p ∈ array.map fun nv => (nv.name, nv.value), Clipped (rule.object.key rule.name) p.1 →
        testRule regex rule.patterns (some (clip p.2)) = some true := by
  have hsame : ∀ nv ∈ array,
      (sameName rule nv = true ↔ Clipped (rule.object.key rule.name) nv.name) ∧
        nv.value.take nv.valueLength.toNat = clip nv.value := by
    intro nv hnv
    obtain ⟨name, value, rfl⟩ := harray nv hnv
    exact ⟨sameName_iff hobject name value, rfl⟩
  rw [testEach_iff h]
  simp only [Bool.false_eq_true, false_or, mem_map, exists_exists_and_eq_and,
    forall_exists_index, and_imp, forall_apply_eq_imp_iff₂]
  constructor
  · rintro ⟨⟨nv, hnv, hsn⟩, hall⟩
    refine ⟨⟨nv, hnv, (hsame nv hnv).1.mp hsn⟩, fun nv hnv hsn => ?_⟩
    rw [← (hsame nv hnv).2]
    exact hall nv hnv ((hsame nv hnv).1.mpr hsn)
  · rintro ⟨⟨nv, hnv, hsn⟩, hall⟩
    refine ⟨⟨nv, hnv, (hsame nv hnv).1.mpr hsn⟩, fun nv hnv hsn => ?_⟩
    rw [(hsame nv hnv).2]
    exact hall nv hnv ((hsame nv hnv).1.mp hsn)

theorem cookiesParse_eq : (cookiesParse r).map (fun nv => (nv.name, nv.value))
    = occurrences clipped r .cookie := by
  have hfilter : r.fields.filter isCookie
      = r.fields.filter fun f => f.name.map lowcase = str "cookie" :=
    filter_congr fun f hf => by
      rw [Bool.eq_iff_iff, isCookie_iff hf]
      simp
  rw [cookiesParse, hfilter, occurrences]
  simp only [cookieParse_eq]
  rfl

/-- **A rule with a name.** -/
theorem routeNamed_iff {rule : NamedRule ρ} (h : routeRule regex r (.named rule) = some b) :
    b = true ↔ NamedHolds regex clipped r rule := by
  rw [routeRule] at h
  rw [NamedHolds]
  cases hobject : rule.object with
  | header =>
    rw [hobject] at h
    have hsame : ∀ f ∈ r.fields, sameField rule f = true
        ↔ Clipped (NameObject.header.key rule.name) (f.name.map lowcase) := fun f hf => by
      rw [sameField_iff hobject hf, hobject]
    rw [testEach_iff h]
    simp only [Bool.false_eq_true, false_or, occurrences, mem_map, exists_exists_and_eq_and,
      forall_exists_index, and_imp, forall_apply_eq_imp_iff₂]
    constructor
    · rintro ⟨⟨f, hf, hs⟩, hall⟩
      exact ⟨⟨f, hf, (hsame f hf).mp hs⟩, fun f hf hs => hall f hf ((hsame f hf).mpr hs)⟩
    · rintro ⟨⟨f, hf, hs⟩, hall⟩
      exact ⟨⟨f, hf, (hsame f hf).mpr hs⟩, fun f hf hs => hall f hf ((hsame f hf).mp hs)⟩
  | argument =>
    rw [hobject] at h
    rw [argumentsParse_fst] at h
    have hiff := testNameValues_iff (by rw [hobject]; nofun) (fun nv hnv => ?_) h
    · rw [hobject] at hiff
      exact hiff
    · cases hargs : r.args with
      | none =>
        rw [hargs] at hnv
        cases hnv
      | some query => ?_
      rw [hargs] at hnv
      obtain ⟨piece, -, hpiece⟩ := mem_filterMap.mp hnv
      exact argumentOf_ofPair hpiece
  | cookie => ?_
  rw [hobject] at h
  have hiff := testNameValues_iff (by rw [hobject]; nofun) (fun nv hnv => ?_) h
  · rw [hobject, cookiesParse_eq] at hiff
    exact hiff
  · obtain ⟨f, -, hnv⟩ := mem_flatMap.mp hnv
    rw [cookieParse_eq] at hnv
    obtain ⟨piece, -, hpiece⟩ := mem_filterMap.mp hnv
    exact cookieOf_ofPair hpiece

theorem routeRule_iff {rule : Rule ρ} (h : routeRule regex r rule = some b) :
    b = true ↔ RuleHolds regex clipped r rule := by
  match rule, h with
  | .named rule, h => exact routeNamed_iff h
  | .scheme length, h =>
    cases h
    exact beq_iff_eq
  | .query patterns, h | .string .host patterns, h =>
    have heval : testRule regex patterns _ = some b := h
    rw [RuleHolds, heval, Option.some.injEq]
  | .string .path patterns, h | .string .method patterns, h =>
    rw [routeRule] at h
    rw [RuleHolds]
    split at h
    case isTrue hnone =>
      cases h
      exact iff_of_false nofun fun hh => hh.1 hnone
    case isFalse hsome => rw [h, Option.some.injEq, and_iff_right hsome]

/-- One step of a loop that goes on while its items hold. -/
theorem forall_cons_iff {α : Type*} {p : α → Prop} {ret rest : Option Bool} {a : α} {l : List α}
    (h : (match ret with | some true => rest | ret => ret) = some b)
    (ha : ∀ b, ret = some b → (b = true ↔ p a))
    (hl : ∀ b, rest = some b → (b = true ↔ ∀ x ∈ l, p x)) : b = true ↔ ∀ x ∈ a :: l, p x := by
  rw [forall_mem_cons]
  split at h
  case h_1 => rw [hl b h, and_iff_right ((ha true rfl).mp rfl)]
  case h_2 hret =>
    have hb := ha b h
    cases b with
    | true => exact absurd h hret
    | false => exact iff_of_false nofun fun hall => absurd (hb.mpr hall.1) nofun

theorem routeRuleset_iff {rules : List (Rule ρ)} (h : routeRuleset regex r rules = some b) :
    b = true ↔ ∀ rule ∈ rules, RuleHolds regex clipped r rule := by
  induction rules generalizing b with
  | nil =>
    cases h
    simp
  | cons rule rules ih => exact forall_cons_iff h (fun _ => routeRule_iff) fun _ => ih

/-- Some object holds, or there is none and the value from before stands. -/
theorem tableLoop_iff {ret : Bool} {rulesets : List (List (Rule ρ))}
    (h : tableLoop regex r ret rulesets = some b) : b = true ↔ (rulesets = [] ∧ ret = true) ∨
      ∃ ruleset ∈ rulesets, ∀ rule ∈ ruleset, RuleHolds regex clipped r rule := by
  induction rulesets generalizing ret with
  | nil =>
    cases h
    simp
  | cons ruleset rulesets ih => ?_
  rw [tableLoop] at h
  rw [exists_mem_cons_iff]
  split at h
  case h_1 hset =>
    have hnot := routeRuleset_iff hset
    rw [ih h]
    simp only [Bool.false_eq_true, and_false, false_or, reduceCtorEq, false_and, false_iff] at hnot ⊢
    rw [or_iff_right hnot]
  case h_2 hset =>
    have hb := routeRuleset_iff h
    cases b with
    | false => exact absurd h hset
    | true => exact iff_of_true rfl (.inr (.inl (hb.mp rfl)))

theorem routeTest_iff {test : Test ρ} (h : routeTest regex r test = some b) :
    b = true ↔ TestHolds regex clipped r test := by
  match test, h with
  | .table rulesets, h =>
    have hloop : tableLoop regex r true rulesets = some b := h
    rw [tableLoop_iff hloop, TestHolds, and_iff_left rfl]
  | .source rule, h | .destination rule, h =>
    cases h
    rfl
  | .rule rule, h => exact routeRule_iff h

theorem testLoop_iff {tests : List (Test ρ)} (h : testLoop regex r tests = some b) :
    b = true ↔ ∀ test ∈ tests, TestHolds regex clipped r test := by
  induction tests generalizing b with
  | nil =>
    cases h
    simp
  | cons test tests ih => exact forall_cons_iff h (fun _ => routeTest_iff) fun _ => ih

theorem routeMatch_iff {step : Step ρ} (h : routeMatch regex r step = some b) :
    b = true ↔ StepHolds regex clipped r step := by
  rw [routeMatch] at h
  rw [StepHolds]
  split at h
  case h_1 hcond => rw [testLoop_iff h, and_iff_right hcond]
  case h_2 hcond =>
    cases b with
    | true => exact absurd h hcond
    | false => exact iff_of_false nofun fun hall => absurd hall.1 hcond

/-- **The source takes the first step that holds as it reads names and values.** -/
theorem handlerFrom_clipped {i : ℕ} {steps : List (Step ρ)}
    (h : handlerFrom regex r i steps = some res) :
    ∃ k, res = k.map (i + ·) ∧ Selected regex clipped r steps k := by
  induction steps generalizing i with
  | nil =>
    cases h
    exact ⟨none, rfl, nofun⟩
  | cons step steps ih => ?_
  rw [handlerFrom] at h
  cases hmatch : routeMatch regex r step with
  | none => simp [hmatch] at h
  | some b => ?_
  have hstep := routeMatch_iff hmatch
  rw [hmatch] at h
  cases b with
  | true =>
    cases h
    exact ⟨some 0, rfl, ⟨step, rfl, hstep.mp rfl⟩, nofun⟩
  | false => ?_
  have hnot : ¬ StepHolds regex clipped r step := fun hh => absurd (hstep.mpr hh) nofun
  obtain ⟨k, rfl, hk⟩ := ih h
  cases k with
  | none => exact ⟨none, rfl, forall_mem_cons.mpr ⟨hnot, hk⟩⟩
  | some k => ?_
  refine ⟨some (k + 1), by simp; omega, hk.1, ?_⟩
  rintro (_ | j) hj s hs
  · cases hs
    exact hnot
  · exact hk.2 j (by omega) s hs

theorem routeHandler_clipped {steps : List (Step ρ)}
    (h : routeHandler regex r steps = some res) : Selected regex clipped r steps res := by
  obtain ⟨k, rfl, hk⟩ := handlerFrom_clipped h
  simpa using hk

end Loops

/-! ### Long names -/

section Long

variable {ρ : Type} {regex : Regex ρ} {r : Request}

/-- Up to the first step that holds, long names and values make no difference. -/
def Alike (regex : Regex ρ) (r : Request) (steps : List (Step ρ)) : Prop :=
  ∀ i : ℕ, ∀ step ∈ steps[i]?, (∀ j < i, ∀ s ∈ steps[j]?, ¬ StepHolds regex whole r s) →
    (StepHolds regex clipped r step ↔ StepHolds regex whole r step)

variable {steps : List (Step ρ)}

theorem Alike.not_whole (h : Alike regex r steps) {n : ℕ}
    (hn : ∀ j < n, ∀ s ∈ steps[j]?, ¬ StepHolds regex clipped r s) :
    ∀ j < n, ∀ s ∈ steps[j]?, ¬ StepHolds regex whole r s := by
  intro j
  induction j using Nat.strong_induction_on with
  | _ j ih =>
    intro hj s hs hwhole
    have hbefore : ∀ k < j, ∀ s ∈ steps[k]?, ¬ StepHolds regex whole r s :=
      fun k hk => ih k hk (by omega)
    exact hn j hj s hs ((h j s hs hbefore).mpr hwhole)

theorem forall_getElem?_iff {P : Step ρ → Prop} :
    (∀ s ∈ steps, P s) ↔ ∀ j < steps.length, ∀ s ∈ steps[j]?, P s := by
  constructor
  · intro h j _ s hs
    exact h s (mem_of_getElem? hs)
  · intro h s hs
    obtain ⟨j, hj⟩ := getElem?_of_mem hs
    exact h j (List.getElem?_eq_some_iff.mp hj).1 s hj

theorem Alike.selected (h : Alike regex r steps) (hclipped : Selected regex clipped r steps res) :
    Selected regex whole r steps res := by
  cases res with
  | none => exact forall_getElem?_iff.mpr (h.not_whole (forall_getElem?_iff.mp hclipped))
  | some k => ?_
  obtain ⟨⟨taken, htaken, hck⟩, hcbefore⟩ := hclipped
  have hwbefore := h.not_whole hcbefore
  exact ⟨⟨taken, htaken, (h k taken htaken hwbefore).mp hck⟩, hwbefore⟩

/-- The names and values that the elements of the source have room for. -/
structure ShortNames (r : Request) (steps : List (Step ρ)) : Prop where
  request : ∀ object, ∀ p ∈ occurrences whole r object, p.1.length < 65536 ∧ p.2.length < 2 ^ 32
  rules : ∀ step ∈ steps, ∀ rulesets, .table rulesets ∈ step.tests → ∀ ruleset ∈ rulesets,
    ∀ rule, .named rule ∈ ruleset → rule.name.length < 65536
  tests : ∀ step ∈ steps, ∀ rule, .rule (.named rule) ∈ step.tests → rule.name.length < 65536

theorem clip_of_short {value : Bytes} (h : value.length < 2 ^ 32) : clip value = value := by
  have hlen : (UInt32.ofNat value.length).toNat = value.length := by
    rw [UInt32.toNat_ofNat', Nat.mod_eq_of_lt h]
  rw [clip, hlen, take_length]

theorem namedHolds_short (hr : ∀ object, ∀ p ∈ occurrences whole r object,
      p.1.length < 65536 ∧ p.2.length < 2 ^ 32) {rule : NamedRule ρ}
    (hrule : rule.name.length < 65536) :
    NamedHolds regex clipped r rule ↔ NamedHolds regex whole r rule := by
  have hocc : occurrences clipped r rule.object = occurrences whole r rule.object := by
    cases rule.object with
    | header | argument => rfl
    | cookie => ?_
    have hvalue : ∀ f ∈ r.fields, clip f.value = f.value := fun f hf =>
      clip_of_short (hr .header (f.name.map lowcase, f.value) (mem_map_of_mem hf)).2
    rw [occurrences, occurrences]
    congr 1
    refine flatMap_congr fun f hf => ?_
    rw [show clipped.value f.value = f.value from hvalue f (mem_of_mem_filter hf)]
    rfl
  have hkey : (rule.object.key rule.name).length < 65536 := by
    cases rule.object with
    | header => exact (length_map lowcase).trans_lt hrule
    | argument | cookie => exact hrule
  have hsame : ∀ p ∈ occurrences whole r rule.object,
      (Clipped (rule.object.key rule.name) p.1 ↔ rule.object.key rule.name = p.1) ∧
        clip p.2 = p.2 := by
    intro p hp
    obtain ⟨hname, hvalue⟩ := hr rule.object p hp
    refine ⟨⟨fun hc => hc.eq hkey hname, fun heq => heq ▸ Clipped.refl _⟩, clip_of_short hvalue⟩
  rw [NamedHolds, NamedHolds, hocc]
  refine and_congr ?_ ?_
  · exact exists_congr fun p => and_congr_right fun hp => (hsame p hp).1
  · refine forall_congr' fun p => forall_congr' fun hp => imp_congr (hsame p hp).1 ?_
    rw [show clipped.value p.2 = p.2 from (hsame p hp).2]
    rfl

/-- **Short names are enough.** -/
theorem routeHandler_short (hshort : ShortNames r steps) (h : routeHandler regex r steps = some res) :
    Selected regex whole r steps res := by
  refine Alike.selected (fun i step hi _ => ?_) (routeHandler_clipped h)
  have hmem : step ∈ steps := mem_of_getElem? hi
  refine and_congr_right fun _ => forall_congr' fun test => forall_congr' fun htest => ?_
  match test, htest with
  | .source _, _ | .destination _, _ => rfl
  | .rule (.scheme _), _ | .rule (.query _), _ => rfl
  | .rule (.string .host _), _ | .rule (.string .path _), _ | .rule (.string .method _), _ => rfl
  | .rule (.named rule), htest =>
    exact namedHolds_short hshort.request (hshort.tests step hmem rule htest)
  | .table rulesets, htest =>
    refine or_congr_right (exists_congr fun ruleset => and_congr_right fun hset =>
      forall_congr' fun rule => forall_congr' fun hrule => ?_)
    match rule, hrule with
    | .scheme _, _ | .query _, _ => rfl
    | .string .host _, _ | .string .path _, _ | .string .method _, _ => rfl
    | .named rule, hrule =>
      exact namedHolds_short hshort.request (hshort.rules step hmem rulesets htest ruleset hset rule hrule)

end Long

def queryRequest (query : Bytes) : Request :=
  { host := none, path := some (str "/"), method := some (str "GET"), args := some query,
    fields := [], tls := false, remote := .other, loc := .other, wellHashed := nofun, names := nofun }

/-- The pattern `*`. -/
def anyPattern : Pattern Empty :=
  { matcher := .slices [], minLength := 0, caseSensitive := true, negative := false, any := true }

/-- A step for requests with an argument `a`. -/
def argumentStep : Step Empty :=
  { condition := ⟨none, false⟩
    tests := [.table [[.named
      { object := .argument, name := [0x61], hash := nameHash [0x61], length := 1,
        patterns := [anyPattern], hash_eq := rfl, length_eq := rfl }]]] }

theorem routeHandler_short_argument :
    Selected noRegex whole (queryRequest (str "a=1")) [argumentStep] (some 0) :=
  routeHandler_short
    ⟨by rintro (_ | _ | _) <;> decide, by simp [argumentStep], by simp [argumentStep]⟩ (by decide)

theorem toNat_hash_replicate (h : UInt32) (c : UInt8) (n : ℕ) :
    ((List.replicate n c).foldl httpFieldHashChar h).toNat
      = (h.toNat * 17 ^ n + c.toNat * ((17 ^ n - 1) / 16)) % 2 ^ 32 := by
  induction n generalizing h with
  | zero => simp [Nat.mod_eq_of_lt h.toNat_lt]
  | succ n ih => ?_
  have hstep : (httpFieldHashChar h c).toNat = (h.toNat * 17 + c.toNat) % 2 ^ 32 := by
    simp only [httpFieldHashChar, UInt32.toNat_add, UInt32.toNat_shiftLeft, UInt8.toNat_toUInt32]
    simp only [Nat.shiftLeft_eq]
    have hfour : (4 : UInt32).toNat % 32 = 4 := rfl
    rw [hfour]
    omega
  -- 17 ^ n leaves 1 when it is divided by 16
  have hgeom : 17 ^ n = 16 * ((17 ^ n - 1) / 16) + 1 := by
    have hmod : 17 ^ n % 16 = 1 := by rw [Nat.pow_mod, Nat.one_pow]
    have hpos : 0 < 17 ^ n := Nat.pow_pos (by decide)
    omega
  have hgeom' : (17 ^ (n + 1) - 1) / 16 = 17 ^ n + (17 ^ n - 1) / 16 := by
    rw [Nat.pow_succ]
    omega
  rw [replicate_succ, foldl_cons, ih, hstep, hgeom']
  refine Nat.ModEq.trans (Nat.ModEq.add_right _ ((Nat.mod_modEq _ _).mul_right _)) ?_
  rw [Nat.pow_succ, show (h.toNat * 17 + c.toNat) * 17 ^ n + c.toNat * ((17 ^ n - 1) / 16)
    = h.toNat * (17 ^ n * 17) + c.toNat * (17 ^ n + (17 ^ n - 1) / 16) by ring]
  exact Nat.ModEq.refl _

/-- A name of 65537 bytes that begins with `a` and has the hash of `a`. -/
def longName : Bytes := [0x61] ++ List.replicate 65534 0x54 ++ [0x3E, 0x66]

theorem longName_length : longName.length = 65537 := by
  rw [longName, length_append, length_append, length_replicate]
  rfl

theorem nameHash_longName : nameHash longName = nameHash [0x61] := by
  have hrun : (replicate 65534 0x54).foldl httpFieldHashChar
      (httpFieldHashChar httpFieldHashInit 0x61) = 1025517607 := by
    rw [← UInt32.toNat_inj, toNat_hash_replicate]
    decide +kernel
  rw [nameHash, longName, foldl_append, foldl_append,
    show [0x61].foldl httpFieldHashChar httpFieldHashInit
      = httpFieldHashChar httpFieldHashInit 0x61 from rfl, hrun]
  decide

theorem clipped_longName : Clipped [0x61] longName := by
  refine ⟨nameHash_longName.symm, ?_, ?_⟩
  · rw [longName_length]
    rfl
  · rw [longName_length, longName, append_assoc]
    rfl

theorem argDecode_of_plain {s : Bytes} (h : ∀ c ∈ s, c ≠ 0x25 ∧ c ≠ 0x2B) : argDecode s = s := by
  induction s with
  | nil => rfl
  | cons c s ih =>
    obtain ⟨hc, hs⟩ := forall_mem_cons.mp h
    rw [argDecode_plain hc.1, if_neg hc.2, ih hs]

theorem arguments_longName : arguments longName = [.ofPair longName []] := by
  have hmem : ∀ c ∈ longName, c = 0x61 ∨ c = 0x54 ∨ c = 0x3E ∨ c = 0x66 := by
    intro c hc
    simp only [longName, mem_append, mem_replicate, mem_cons, not_mem_nil, or_false] at hc
    tauto
  have hbytes : ∀ c : UInt8, (c = 0x61 ∨ c = 0x54 ∨ c = 0x3E ∨ c = 0x66) →
      (c == 0x26) = false ∧ (c != 0x3D) = true ∧ c ≠ 0x25 ∧ c ≠ 0x2B := by decide +kernel
  have hone : longName.splitOn 0x26 = [longName] :=
    splitOnP_eq_singleton fun c hc => (hbytes c (hmem c hc)).1
  have htake : longName.takeWhile (· != 0x3D) = longName :=
    takeWhile_eq_self_iff.mpr fun c hc => (hbytes c (hmem c hc)).2.1
  have hdrop : longName.dropWhile (· != 0x3D) = [] :=
    dropWhile_eq_nil_iff.mpr fun c hc => (hbytes c (hmem c hc)).2.1
  have hdecode : argDecode longName = longName :=
    argDecode_of_plain fun c hc => (hbytes c (hmem c hc)).2.2
  have hne : longName ≠ [] := fun h => absurd (h ▸ longName_length) (by decide)
  have hof : argumentOf longName = some (.ofPair longName []) := by
    rw [argumentOf, htake, hdrop, hdecode, if_neg (fun h => hne h.1)]
    rfl
  rw [arguments, hone, filterMap_cons_some hof, filterMap_nil]

/-! ### Arguments seen by a rule -/

/-- **Which arguments a rule sees.**  The arguments of a query are those of its
pieces, equal names have equal hashes, and a rule sees those of its own name
exactly if no other one agrees with it in all that is compared. -/
theorem argument_seen_iff {ρ : Type} {regex : Regex ρ} {qsort : Qsort Bytes} {name : Bytes}
    {cv : List Bytes} {rule : NamedRule ρ}
    (h : ruleNameCreate regex qsort .argument name cv = some rule) (query : Bytes) :
    decodeStr .plus name = some rule.name ∧
      (argumentsParse (some query)).1 = (query.splitOn 0x26).filterMap argumentOf ∧
      (∀ nv ∈ arguments query, nv.name = rule.name → nv.hash = rule.hash) ∧
      ((∀ nv ∈ arguments query, sameName rule nv = true ↔ nv.name = rule.name) ↔
        ∀ nv ∈ arguments query, Clipped rule.name nv.name → nv.name = rule.name) := by
  obtain ⟨hobject, hname, -⟩ := ruleNameCreate_name h
  have hkey : rule.object.key rule.name = rule.name := by rw [hobject]; rfl
  have hpair (nv) (hnv : nv ∈ arguments query) : ∃ name value, nv = .ofPair name value := by
    obtain ⟨piece, -, hpiece⟩ := mem_filterMap.mp hnv
    exact argumentOf_ofPair hpiece
  have hsame (nv) (hnv : nv ∈ arguments query) :
      sameName rule nv = true ↔ Clipped rule.name nv.name := by
    obtain ⟨name, value, rfl⟩ := hpair nv hnv
    rw [sameName_iff (by simp [hobject]), hkey]
    rfl
  refine ⟨hname, argumentsParse_fst (some query), ?_, ?_⟩
  · intro nv hnv heq
    obtain ⟨name, value, rfl⟩ := hpair nv hnv
    rw [rule.hash_eq, hkey, ← heq]
    rfl
  · refine forall₂_congr fun nv hnv => ?_
    rw [hsame nv hnv]
    exact ⟨Iff.mp, fun hclip => ⟨hclip, fun heq => heq ▸ Clipped.refl _⟩⟩

theorem argument_seen_encoded :
    let rule : NamedRule Empty :=
      { object := .argument, name := str "a b", hash := nameHash (str "a b"), length := 3,
        patterns := [], hash_eq := rfl, length_eq := rfl }
    ruleNameCreate noRegex (insertionQsort Bytes) .argument (str "a+b") [] = some rule ∧
      ∀ nv ∈ arguments (str "%61%20b=1&c"), nv.name = rule.name → nv.hash = rule.hash := by
  intro rule
  have h : ruleNameCreate noRegex (insertionQsort Bytes) .argument (str "a+b") [] = some rule := rfl
  exact ⟨h, (argument_seen_iff h _).2.2.1⟩

/-- An argument with a name of 65537 bytes is seen by the rule for `a`. -/
theorem argument_seen_long_name :
    ∃ rule, ruleNameCreate noRegex (insertionQsort Bytes) .argument [0x61] [] = some rule ∧
      ∃ nv ∈ (argumentsParse (some longName)).1,
        sameName rule nv = true ∧ nv.name ≠ rule.name := by
  let rule : NamedRule Empty :=
    { object := .argument, name := [0x61], hash := nameHash [0x61], length := 1, patterns := [],
      hash_eq := rfl, length_eq := rfl }
  have hsame : sameName rule (.ofPair longName []) = true :=
    (sameName_iff (by simp [rule]) longName []).mpr clipped_longName
  refine ⟨rule, rfl, .ofPair longName [], ?_, hsame, ?_⟩
  · rw [argumentsParse_fst, Option.elim_some, arguments_longName]
    exact mem_singleton_self _
  · intro heq
    exact absurd (longName_length.symm.trans (congrArg length heq)) (by decide)

end FreeUnit.Route
