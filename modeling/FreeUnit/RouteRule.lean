/-
Arrays of patterns in a route rule.

`nxt_http_route_rule_create` sorts the array so that negated patterns come
first, and `nxt_http_route_test_rule` walks it with a short-circuit test; the
address rules are sorted and walked the same way by functions of their own.

* `ruleLoop_iff` — the walk over an array with its negated elements first
  computes that meaning;
* `rules_accept_iff` — string rules and address rules accept exactly what the
  array means, in any order of the array;
* `testRule_order_error` — a regular expression that fails to run makes the
  result depend on the order.
-/
import FreeUnit.RouteGlob
import Mathlib.Data.BitVec

namespace FreeUnit

open List Option

variable {α β : Type*}

/-! ### The meaning of an array -/

section Meaning

variable {α : Type*} (neg hit : α → Prop)

/-- No negated element excludes the subject and, if there is a positive
element, one of them matches. -/
def RuleAccepts (l : List α) : Prop :=
  (∀ x ∈ l, neg x → ¬ hit x) ∧ ((∃ x ∈ l, ¬ neg x) → ∃ x ∈ l, ¬ neg x ∧ hit x)

def NegatedFirst (l : List α) : Prop := l.Pairwise fun x y => neg y → neg x

variable {neg hit}

theorem RuleAccepts.perm {l l' : List α} (h : l.Perm l') :
    RuleAccepts neg hit l ↔ RuleAccepts neg hit l' := by
  simp only [RuleAccepts, h.mem_iff]

theorem ruleAccepts_cons_neg {x : α} {l : List α} (hneg : neg x) :
    RuleAccepts neg hit (x :: l) ↔ ¬ hit x ∧ RuleAccepts neg hit l := by
  simp only [RuleAccepts, forall_mem_cons, exists_mem_cons_iff, hneg, not_true_eq_false,
    false_and, false_or, forall_const, and_assoc]

theorem ruleAccepts_of_positive {l : List α} (hpos : ∀ x ∈ l, ¬ neg x) (hne : l ≠ []) :
    RuleAccepts neg hit l ↔ ∃ x ∈ l, hit x := by
  obtain ⟨y, hy⟩ := exists_mem_of_ne_nil l hne
  constructor
  · rintro ⟨-, h⟩
    obtain ⟨x, hx, -, hhit⟩ := h ⟨y, hy, hpos y hy⟩
    exact ⟨x, hx, hhit⟩
  · rintro ⟨x, hx, hhit⟩
    exact ⟨fun z hz hn => absurd hn (hpos z hz), fun _ => ⟨x, hx, hpos x hx, hhit⟩⟩

theorem RuleAccepts.map {neg' hit' : β → Prop} {l : List α} {l' : List β}
    (h : List.Forall₂ (fun x y => (neg x ↔ neg' y) ∧ (hit x ↔ hit' y)) l l') :
    RuleAccepts neg hit l ↔ RuleAccepts neg' hit' l' := by
  have hall : ∀ P : Prop → Prop → Prop, (∀ x ∈ l, P (neg x) (hit x)) ↔
      ∀ y ∈ l', P (neg' y) (hit' y) := by
    intro P
    induction h with
    | nil => simp
    | cons hxy _ ih => simp only [forall_mem_cons, hxy.1, hxy.2, ih]
  have hex : ∀ P : Prop → Prop → Prop, (∃ x ∈ l, P (neg x) (hit x)) ↔
      ∃ y ∈ l', P (neg' y) (hit' y) := by
    intro P
    have := not_congr (hall fun p q => ¬ P p q)
    simpa using this
  rw [RuleAccepts, RuleAccepts, hall fun p q => p → ¬ q, hex fun p _ => ¬ p, hex fun p q => ¬ p ∧ q]

theorem NegatedFirst.map {neg' : β → Prop} {R : α → β → Prop} {l : List α}
    {l' : List β} (hl : NegatedFirst neg l)
    (h : List.Forall₂ (fun x y => (neg x ↔ neg' y) ∧ R x y) l l') : NegatedFirst neg' l' := by
  induction h with
  | nil => exact .nil
  | @cons x y l l' hxy h ih => ?_
  obtain ⟨hx, hl⟩ := pairwise_cons.mp hl
  refine pairwise_cons.mpr ⟨fun z hz hnz => hxy.1.mp ?_, ih hl⟩
  obtain ⟨w, hw, hwz⟩ := exists_mem_of_forall₂ h hz
  exact hx w hw (hwz.1.mpr hnz)

end Meaning

/-! ### The walk -/

section Walk

variable {α : Type*} (neg hit : α → Bool)

/-- The common shape of the two walks: a negated element that matches ends it
with false, a positive one that matches with true, and at the end the value
left over by the last element stands. -/
def ruleLoop (ret : Bool) : List α → Bool
  | [] => ret
  | x :: l =>
    if neg x then if hit x then false else ruleLoop true l
    else if hit x then true else ruleLoop false l

theorem ruleLoop_iff (ret : Bool) {l : List α} (hne : l ≠ [])
    (hl : NegatedFirst (fun x => neg x = true) l) : ruleLoop neg hit ret l = true ↔
      RuleAccepts (fun x => neg x = true) (fun x => hit x = true) l := by
  induction l generalizing ret with
  | nil => exact absurd rfl hne
  | cons x l ih => ?_
  obtain ⟨hx, hl⟩ := pairwise_cons.mp hl
  rw [ruleLoop]
  by_cases hneg : neg x = true
  · rw [if_pos hneg, @ruleAccepts_cons_neg _ (fun x => neg x = true) _ x l hneg]
    by_cases hhit : hit x = true
    · simp [hhit]
    rw [if_neg hhit]
    cases l with
    | nil => simp [ruleLoop, RuleAccepts, hhit]
    | cons y l => rw [ih _ (by simp) hl, and_iff_right hhit]
  -- From the first positive element on, every element is positive.
  have hpos : ∀ y ∈ x :: l, ¬ neg y = true := by
    rw [forall_mem_cons]
    exact ⟨hneg, fun y hy hny => hneg (hx y hy hny)⟩
  rw [if_neg hneg, ruleAccepts_of_positive hpos (by simp), exists_mem_cons_iff]
  by_cases hhit : hit x = true
  · simp [hhit]
  rw [if_neg hhit]
  cases l with
  | nil => simp [ruleLoop, hhit]
  | cons y l => ?_
  rw [ih _ (by simp) hl,
    ruleAccepts_of_positive (fun z hz => hpos z (mem_cons_of_mem x hz)) (by simp)]
  simp [hhit]

end Walk

/-! ### Sorting -/

/-- `qsort` of the C library: it permutes the array into the order of the
comparison function, and says nothing about elements that compare equal. -/
structure Qsort (α : Type) where
  sort : (α → α → ℤ) → List α → List α
  perm : ∀ compare l, (sort compare l).Perm l
  sorted : ∀ compare l, (∀ x y, compare x y ≤ 0 ∨ compare y x ≤ 0) →
    (∀ x y z, compare x y ≤ 0 → compare y z ≤ 0 → compare x z ≤ 0) →
    (sort compare l).Pairwise fun x y => compare x y ≤ 0

/-- `negative2 - negative1`. -/
def negativeCompare {α : Type} (negative : α → Bool) (one two : α) : ℤ :=
  (negative two).toNat - (negative one).toNat

theorem negativeCompare_le_zero {α : Type} {negative : α → Bool} {x y : α} :
    negativeCompare negative x y ≤ 0 ↔ (negative y = true → negative x = true) := by
  cases hx : negative x <;> cases hy : negative y <;> simp [negativeCompare, hx, hy]

theorem Qsort.negatedFirst {α : Type} (qsort : Qsort α) (negative : α → Bool) (l : List α) :
    NegatedFirst (fun x => negative x = true) (qsort.sort (negativeCompare negative) l) := by
  have h := qsort.sorted (negativeCompare negative) l ?_ ?_
  · exact h.imp negativeCompare_le_zero.mp
  · intro x y
    rw [negativeCompare_le_zero, negativeCompare_le_zero]
    tauto
  · intro x y z
    rw [negativeCompare_le_zero, negativeCompare_le_zero, negativeCompare_le_zero]
    tauto

def insertionQsort (α : Type) : Qsort α where
  sort compare l := l.insertionSort fun x y => compare x y ≤ 0
  perm compare l := List.perm_insertionSort _ l
  sorted compare l htotal htrans := by
    have : Std.Total fun x y : α => compare x y ≤ 0 := ⟨htotal⟩
    have : IsTrans α fun x y => compare x y ≤ 0 := ⟨htrans⟩
    exact List.pairwise_insertionSort _ l

/-! ### Arrays of string patterns -/

variable {f : α → Option β} {l : List α}

section Strings

variable {ρ : Type} (regex : Regex ρ)

/-- `test.length != 0 && test.start[0] == '!'`. -/
def isNegative (value : Bytes) : Bool := value.head? = some 0x21

def patternCompare : Bytes → Bytes → ℤ := negativeCompare isNegative

/-- `nxt_http_route_rule_create` of an array of strings, or of one string as
the array of it. -/
def ruleCreate (qsort : Qsort Bytes) (kind : PatternKind) (cv : List Bytes) :
    Option (List (Pattern ρ)) :=
  (qsort.sort patternCompare cv).mapM (patternCreate regex kind)

/-- The loop of `nxt_http_route_test_rule`: `none` is `NXT_ERROR`. -/
def testRuleFrom (subject : Option Bytes) (ret : Bool) : List (Pattern ρ) → Option Bool
  | [] => some ret
  | pattern :: rule =>
    match pattern.test regex subject with
    | none => none
    | some ret =>
      let ret := ret ^^ pattern.negative
      if pattern.any = ret then some ret else testRuleFrom subject ret rule

def testRule (rule : List (Pattern ρ)) (subject : Option Bytes) : Option Bool :=
  testRuleFrom regex subject true rule

theorem patternCreate_flags {kind : PatternKind} {value : Bytes} {pattern : Pattern ρ}
    (h : patternCreate regex kind value = some pattern) :
    pattern.negative = isNegative value ∧ pattern.any = !pattern.negative := by
  rw [show isNegative value = (negation value).1 from (negation_fst value).symm]
  unfold patternCreate at h
  generalize negation value = n at h
  obtain ⟨negative, test⟩ := n
  dsimp only at h
  split at h
  · split at h
    · cases h
      exact ⟨rfl, rfl⟩
    · cases h
  · cases h
    exact ⟨rfl, rfl⟩
  obtain ⟨slices, -, hp⟩ := bind_eq_some_iff.mp h
  cases hp
  exact ⟨rfl, rfl⟩

theorem testRuleFrom_eq {subject : Option Bytes} (ret : Bool) {rule : List (Pattern ρ)}
    (hany : ∀ p ∈ rule, p.any = !p.negative) (hok : ∀ p ∈ rule, p.test regex subject ≠ none) :
    testRuleFrom regex subject ret rule =
      some (ruleLoop (·.negative) (fun p => (p.test regex subject).getD false) ret rule) := by
  induction rule generalizing ret with
  | nil => rfl
  | cons p rule ih => ?_
  rw [forall_mem_cons] at hany hok
  obtain ⟨b, hb⟩ := ne_none_iff_exists'.mp hok.1
  rw [testRuleFrom, hb, ruleLoop, hb, hany.1]
  cases hneg : p.negative <;> cases b <;> simp [ih _ hany.2 hok.2]

def Hits (kind : PatternKind) (subject : Option Bytes) (value : Bytes) : Prop :=
  ∃ pattern, patternCreate regex kind value = some pattern ∧
    pattern.test regex subject = some true

/-- No pattern of the array fails to be evaluated on the subject. -/
def NoError (kind : PatternKind) (subject : Option Bytes) (cv : List Bytes) : Prop :=
  ∀ value ∈ cv, ∀ pattern, patternCreate regex kind value = some pattern →
    pattern.test regex subject ≠ none

theorem forall₂_of_mapM {l' : List β} (h : l.mapM f = some l') :
    List.Forall₂ (fun x y => f x = some y) l l' := by
  induction l generalizing l' with
  | nil =>
    cases h
    exact .nil
  | cons x l ih => ?_
  rw [mapM_cons] at h
  obtain ⟨y, hy, h⟩ := bind_eq_some_iff.mp h
  obtain ⟨ys, hys, h⟩ := bind_eq_some_iff.mp h
  cases h
  exact .cons hy (ih hys)

/-- **A string rule accepts what its array means.** -/
theorem testRule_iff {qsort : Qsort Bytes} {kind : PatternKind} {cv : List Bytes}
    {rule : List (Pattern ρ)} {subject : Option Bytes} (hne : cv ≠ [])
    (hrule : ruleCreate regex qsort kind cv = some rule) (hok : NoError regex kind subject cv) :
    ∃ b, testRule regex rule subject = some b ∧
      (b = true ↔ RuleAccepts (fun v => isNegative v = true) (Hits regex kind subject) cv) := by
  have hperm := qsort.perm patternCompare cv
  have hvalue : List.Forall₂ (fun v p => v ∈ cv ∧ patternCreate regex kind v = some p)
      (qsort.sort patternCompare cv) rule :=
    (forall₂_and_left _ _).mpr ⟨fun v hv => hperm.mem_iff.mp hv, forall₂_of_mapM hrule⟩
  have hflags : ∀ p ∈ rule, p.any = !p.negative ∧ p.test regex subject ≠ none := by
    intro p hp
    obtain ⟨v, -, hv, hcreate⟩ := exists_mem_of_forall₂ hvalue hp
    exact ⟨(patternCreate_flags regex hcreate).2, hok v hv p hcreate⟩
  -- Every compiled pattern carries the sign and the result of its string.
  have hsame : List.Forall₂ (fun v p => (isNegative v = true ↔ p.negative = true) ∧
      (Hits regex kind subject v ↔ (p.test regex subject).getD false = true))
      (qsort.sort patternCompare cv) rule := by
    refine List.Forall₂.imp ?_ hvalue
    rintro v p ⟨hv, hp⟩
    obtain ⟨b, hb⟩ := ne_none_iff_exists'.mp (hok v hv p hp)
    refine ⟨by rw [(patternCreate_flags regex hp).1], ?_⟩
    simp [Hits, hp, hb]
  have hlen : rule ≠ [] := by
    rintro rfl
    have hnil := forall₂_nil_right_iff.mp hvalue
    exact hne (perm_nil.mp (hnil ▸ hperm).symm)
  refine ⟨_, testRuleFrom_eq regex true (fun p hp => (hflags p hp).1)
    (fun p hp => (hflags p hp).2), ?_⟩
  rw [ruleLoop_iff _ _ _ hlen ((qsort.negatedFirst isNegative cv).map hsame),
    ← RuleAccepts.map hsame, RuleAccepts.perm hperm]

end Strings

/-! ### Arrays of address patterns -/

inductive AddrFamily
  | unspec
  | inet
  | inet6
  | unix
  deriving Repr, DecidableEq

/-- `match_type`. -/
inductive AddrMatch
  | any
  | range
  | exact
  | cidr
  deriving Repr, DecidableEq

/-- `nxt_http_route_addr_range_t` and `nxt_http_route_in6_addr_range_t`: two
addresses in network byte order, where `memcmp` is the order of the numbers. -/
structure AddrRange (width : ℕ) where
  start : BitVec width
  stop : BitVec width
  deriving Repr, DecidableEq

/-- `nxt_http_route_addr_pattern_t`, with both members of the union `addr`. -/
structure AddrPattern where
  negative : Bool
  family : AddrFamily
  matchType : AddrMatch
  port : UInt16 × UInt16
  v4 : AddrRange 32
  v6 : AddrRange 128
  deriving Repr, DecidableEq

/-- `nxt_sockaddr_t`, as far as a pattern reads it. -/
inductive Sockaddr
  | inet (addr : BitVec 32) (port : UInt16)
  | inet6 (addr : BitVec 128) (port : UInt16)
  | unix
  | other
  deriving Repr, DecidableEq

/-- The comparison of an address with the match type of a pattern. -/
def AddrRange.test {width : ℕ} (range : AddrRange width) (addr : BitVec width) : AddrMatch → Bool
  | .any => true
  | .exact => addr = range.start
  | .range => range.start ≤ addr && addr ≤ range.stop
  | .cidr => addr &&& range.stop = range.start

/-- The value of `match` at the end of `nxt_http_route_addr_pattern_match`. -/
def AddrPattern.hits (p : AddrPattern) : Sockaddr → Bool
  | .inet addr port =>
    (p.family = .inet || p.family = .unspec) && (p.port.1 ≤ port && port ≤ p.port.2) &&
      p.v4.test addr p.matchType
  | .inet6 addr port =>
    (p.family = .inet6 || p.family = .unspec) && (p.port.1 ≤ port && port ≤ p.port.2) &&
      p.v6.test addr p.matchType
  | .unix => p.family = .unix
  | .other => false

def AddrPattern.match (p : AddrPattern) (sa : Sockaddr) : Bool := p.hits sa ^^ p.negative

def addrPatternCompare : AddrPattern → AddrPattern → ℤ := negativeCompare AddrPattern.negative

/-- `nxt_http_route_addr_rule_create` of the parsed patterns. -/
def addrRuleCreate (qsort : Qsort AddrPattern) (patterns : List AddrPattern) :
    List AddrPattern :=
  if 1 < patterns.length then qsort.sort addrPatternCompare patterns else patterns

/-- The loop of `nxt_http_route_addr_rule`: `last` is `p->base.negative` of the
pattern before. -/
def addrRuleFrom (sa : Sockaddr) (last : Bool) : List AddrPattern → Bool
  | [] => last
  | p :: rule =>
    if p.negative then if p.match sa then addrRuleFrom sa p.negative rule else false
    else if p.match sa then true else addrRuleFrom sa p.negative rule

def addrRule (rule : List AddrPattern) (sa : Sockaddr) : Bool :=
  if rule.length = 0 then false else addrRuleFrom sa false rule

theorem addrRuleFrom_eq (sa : Sockaddr) (last : Bool) (rule : List AddrPattern) :
    addrRuleFrom sa last rule = ruleLoop (·.negative) (·.hits sa) last rule := by
  induction rule generalizing last with
  | nil => rfl
  | cons p rule ih => ?_
  rw [addrRuleFrom, ruleLoop, AddrPattern.match]
  cases hneg : p.negative <;> cases p.hits sa <;> simp [ih]

theorem addrRuleCreate_perm (qsort : Qsort AddrPattern) (patterns : List AddrPattern) :
    (addrRuleCreate qsort patterns).Perm patterns := by
  unfold addrRuleCreate
  split
  · exact qsort.perm _ _
  · exact .refl _

theorem addrRuleCreate_negatedFirst (qsort : Qsort AddrPattern) (patterns : List AddrPattern) :
    NegatedFirst (fun p => p.negative = true) (addrRuleCreate qsort patterns) := by
  unfold addrRuleCreate
  split
  · exact qsort.negatedFirst _ _
  match patterns with
  | [] => exact .nil
  | [p] => exact pairwise_singleton _ _
  | p :: q :: l => simp at *

/-- **An address rule accepts what its array means.** -/
theorem addrRule_iff (qsort : Qsort AddrPattern) {patterns : List AddrPattern}
    (hne : patterns ≠ []) (sa : Sockaddr) : addrRule (addrRuleCreate qsort patterns) sa = true ↔
      RuleAccepts (fun p => p.negative = true) (fun p => p.hits sa = true) patterns := by
  have hperm := addrRuleCreate_perm qsort patterns
  have hlen : addrRuleCreate qsort patterns ≠ [] := by
    intro h
    exact hne (perm_nil.mp (h ▸ hperm).symm)
  rw [addrRule, if_neg (by simpa using hlen), addrRuleFrom_eq,
    ruleLoop_iff _ _ _ hlen (addrRuleCreate_negatedFirst qsort patterns), RuleAccepts.perm hperm]

/-! ### Any order of the array -/

theorem exists_mapM (h : ∀ x ∈ l, ∃ y, f x = some y) : ∃ l', l.mapM f = some l' := by
  induction l with
  | nil => exact ⟨[], rfl⟩
  | cons x l ih => ?_
  rw [forall_mem_cons] at h
  obtain ⟨y, hy⟩ := h.1
  obtain ⟨ys, hys⟩ := ih h.2
  exact ⟨y :: ys, by rw [mapM_cons, hy, hys]; rfl⟩

section Order

variable {ρ : Type} (regex : Regex ρ)

/-- A rule that is compiled from an array is compiled from every order of it,
by every sort. -/
theorem exists_ruleCreate_of_perm {qsort : Qsort Bytes} {kind : PatternKind} {cv cv' : List Bytes}
    {rule : List (Pattern ρ)} (hrule : ruleCreate regex qsort kind cv = some rule)
    (hperm : cv'.Perm cv) (qsort' : Qsort Bytes) :
    ∃ rule', ruleCreate regex qsort' kind cv' = some rule' := by
  refine exists_mapM fun v hv => ?_
  have hmem : v ∈ qsort.sort patternCompare cv := (qsort.perm patternCompare cv).mem_iff.mpr
      (hperm.mem_iff.mp ((qsort'.perm patternCompare cv').mem_iff.mp hv))
  obtain ⟨p, -, hp⟩ := exists_mem_of_forall₂ (forall₂_of_mapM hrule).flip hmem
  exact ⟨p, hp⟩

/-- **Rules accept what their arrays mean**, whatever the order of the array
and whatever the sort makes of equal elements: arrays of strings on every
subject that no pattern fails on, and arrays of addresses on every address. -/
theorem rules_accept_iff :
    (∀ (qsort : Qsort Bytes) (kind : PatternKind) (cv : List Bytes) (rule : List (Pattern ρ))
        (subject : Option Bytes), cv ≠ [] → ruleCreate regex qsort kind cv = some rule →
        NoError regex kind subject cv →
        (∃ b, testRule regex rule subject = some b ∧
          (b = true ↔ RuleAccepts (fun v => isNegative v = true) (Hits regex kind subject) cv)) ∧
        ∀ (qsort' : Qsort Bytes) (cv' : List Bytes), cv'.Perm cv →
          ∃ rule', ruleCreate regex qsort' kind cv' = some rule' ∧
            testRule regex rule' subject = testRule regex rule subject) ∧
    ∀ (qsort : Qsort AddrPattern) (patterns : List AddrPattern) (sa : Sockaddr), patterns ≠ [] →
      (addrRule (addrRuleCreate qsort patterns) sa = true ↔
        RuleAccepts (fun p => p.negative = true) (fun p => p.hits sa = true) patterns) ∧
      ∀ (qsort' : Qsort AddrPattern) (patterns' : List AddrPattern), patterns'.Perm patterns →
        addrRule (addrRuleCreate qsort' patterns') sa =
          addrRule (addrRuleCreate qsort patterns) sa := by
  constructor
  · intro qsort kind cv rule subject hne hrule hok
    obtain ⟨b, hb, hiff⟩ := testRule_iff regex hne hrule hok
    refine ⟨⟨b, hb, hiff⟩, fun qsort' cv' hperm => ?_⟩
    obtain ⟨rule', hrule'⟩ := exists_ruleCreate_of_perm regex hrule hperm qsort'
    have hne' : cv' ≠ [] := fun h => hne (perm_nil.mp (h ▸ hperm).symm)
    have hok' : NoError regex kind subject cv' := fun v hv => hok v (hperm.mem_iff.mp hv)
    obtain ⟨b', hb', hiff'⟩ := testRule_iff regex hne' hrule' hok'
    refine ⟨rule', hrule', ?_⟩
    rw [hb, hb', Bool.eq_iff_iff.mpr (hiff'.trans ((RuleAccepts.perm hperm).trans hiff.symm))]
  · intro qsort patterns sa hne
    refine ⟨addrRule_iff qsort hne sa, fun qsort' patterns' hperm => ?_⟩
    have hne' : patterns' ≠ [] := fun h => hne (perm_nil.mp (h ▸ hperm).symm)
    rw [Bool.eq_iff_iff, addrRule_iff qsort' hne' sa, addrRule_iff qsort hne sa,
      RuleAccepts.perm hperm]

end Order

theorem noError_noRegex (kind : PatternKind) (subject : Option Bytes) (cv : List Bytes) :
    NoError noRegex kind subject cv := by
  intro v _ pattern _ hnone
  unfold Pattern.test at hnone
  split at hnone
  · next re _ => exact re.elim
  dsimp only at hnone
  split_ifs at hnone

/-- A string array and an address array with a negated element each. -/
theorem rules_accept_negated :
    ((∃ b rule, ruleCreate noRegex (insertionQsort Bytes) .headers [str "a*", str "!*b"] =
        some rule ∧ testRule noRegex rule (some (str "ac")) = some b ∧
        (b = true ↔ RuleAccepts (fun v => isNegative v = true)
          (Hits noRegex .headers (some (str "ac"))) [str "a*", str "!*b"]))) ∧
    ∀ p : AddrPattern, addrRule (addrRuleCreate (insertionQsort AddrPattern) [p]) .unix = true ↔
      RuleAccepts (fun p => p.negative = true) (fun p => p.hits .unix = true) [p] := by
  obtain ⟨hstrings, haddrs⟩ := rules_accept_iff noRegex
  constructor
  · obtain ⟨rule, hrule⟩ : ∃ rule,
        ruleCreate noRegex (insertionQsort Bytes) .headers [str "a*", str "!*b"] = some rule :=
      ⟨_, rfl⟩
    obtain ⟨⟨b, hb, hiff⟩, -⟩ := hstrings _ .headers _ rule (some (str "ac")) (by simp) hrule
      (noError_noRegex _ _ _)
    exact ⟨b, rule, hrule, hb, hiff⟩
  · intro p
    exact (haddrs _ [p] .unix (by simp)).1

/-- A library whose matches all fail, as one does at its backtracking limit. -/
def failingRegex : Regex Unit := ⟨fun _ => .ok (), fun _ _ => none⟩

/-- The array means that the subject is accepted, since its second pattern
matches; a failing expression before that pattern makes an error of it, and
after it does nothing. -/
theorem testRule_order_error :
    RuleAccepts (fun v => isNegative v = true) (Hits failingRegex .headers (some (str "a")))
      [str "~x", str "a"] ∧
    ∃ rule rule',
      ruleCreate failingRegex (insertionQsort Bytes) .headers [str "~x", str "a"] = some rule ∧
      ruleCreate failingRegex (insertionQsort Bytes) .headers [str "a", str "~x"] = some rule' ∧
      testRule failingRegex rule (some (str "a")) = none ∧
      testRule failingRegex rule' (some (str "a")) = some true := by
  constructor
  · refine ⟨?_, fun _ => ⟨str "a", by simp, by decide, _, rfl, rfl⟩⟩
    intro v hv hneg
    have hall : ∀ v ∈ [str "~x", str "a"], isNegative v = false := by decide
    simp [hall v hv] at hneg
  · exact ⟨_, _, rfl, rfl, rfl, rfl⟩

end FreeUnit
