/-
The content coding of a response, `nxt_http_comp_negotiate`.

* `Item`, `Named` — the grammar of the field;
* `negotiate_spec` — the coding is acceptable and of maximal weight, and there is
  a refusal only if there is no acceptable one.
-/
import FreeUnit.FieldTable

namespace FreeUnit.Compression

open List Function Option

/-! ### The source -/

/-- The codings of `nxt_http_comp_compressors` besides identity. -/
inductive Coding where
  | deflate
  | gzip
  | zstd
  | br
  deriving DecidableEq, Repr

def Coding.token : Coding → Bytes
  | .deflate => str "deflate"
  | .gzip => str "gzip"
  | .zstd => str "zstd"
  | .br => str "br"

def identityToken : Bytes := str "identity"

/-- An enabled compressor; entry 0 of the source's array is identity. -/
structure Compressor where
  coding : Coding
  minLen : ℤ

/-- `nxt_http_comp_find_weight`: what stands before the weight, and its value. -/
def findWeight : Bytes → Option (Bytes × Bytes)
  | [] => none
  | c :: p =>
    -- ';', 'q' or 'Q', '='
    if c = 0x3B ∧ (p.head? = some 0x71 ∨ p.head? = some 0x51) ∧ p[1]? = some 0x3D then
      some ([], p.drop 2)
    else (findWeight p).map fun r => (c :: r.1, r.2)

def fraction : Bytes → ℚ
  | [] => 0
  | c :: p => (((c - 0x30).toNat : ℚ) + fraction p) / 10

/-- `nxt_http_comp_parse_weight`, with exact numbers for those of `strtod`. -/
def parseWeight (p : Bytes) : Option ℚ :=
  match p with
  | [] => none
  | c :: p =>
    if c ≠ 0x30 ∧ c ≠ 0x31 then none
    else
      let digits := if p.head? = some 0x2E then (p.drop 1).takeWhile isDigit else []
      let rest := if p.head? = some 0x2E then (p.drop 1).dropWhile isDigit else p
      if rest ≠ [] ∧ rest.head? ≠ some 0x3B then none
      else
        let qval := ((c - 0x30).toNat : ℚ) + fraction digits
        if qval ≤ 1 then some qval else none

/-- An element of the field: its coding and the weight, unless it is ignored. -/
def parseElement (tkn : Bytes) : Option (Bytes × ℚ) :=
  match findWeight tkn with
  | none => some (tkn, 1)
  | some (enc, qvalue) => (parseWeight qvalue).map fun q => (enc, q)

def belowMinLen (clen : ℤ) (c : Compressor) : Bool := -1 < clen && clen < c.minLen

structure Negotiation where
  identityNamed : Bool := false
  identityOk : Bool := false
  wildcardSeen : Bool := false
  wildcard : ℚ := 0
  named : List ℕ := []
  weight : ℚ := 0
  idx : ℕ := 0

def Negotiation.take (s : Negotiation) (i : ℕ) (q : ℚ) : Negotiation :=
  if q = 0 ∨ q < s.weight then s else { s with idx := i, weight := q }

section

variable (conf : List Compressor) (clen : ℤ)

/-- `conf->enabled[i]`, identity apart. -/
def enabledAt : ℕ → Option Compressor
  | 0 => none
  | i + 1 => conf[i]?

/-- `nxt_http_comp_compressor_lookup_enabled`, for a token that is not identity. -/
def lookupEnabled (token : Bytes) : Option ℕ :=
  (conf.findIdx? fun c => strcasestrEq token c.coding.token).map (· + 1)

/-- A coding below its own minimum length is not applied. -/
def tooShort (i : ℕ) : Bool := (enabledAt conf i).any (belowMinLen clen)

def Negotiation.enabled (s : Negotiation) (i : ℕ) (q : ℚ) : Negotiation :=
  -- the mask of the source has 32 bits
  let s := if i < 32 then { s with named := i :: s.named } else s
  if tooShort conf clen i then s else s.take i q

/-- The body of the loop, for an element whose weight was read. -/
def Negotiation.element (s : Negotiation) (enc : Bytes) (q : ℚ) : Negotiation :=
  if enc = str "*" then { s with wildcardSeen := true, wildcard := q }
  else if strcasestrEq enc identityToken then
    { s with identityNamed := true, identityOk := q ≠ 0 }.take 0 q
  else
    match lookupEnabled conf enc with
    | none => s
    | some i => s.enabled conf clen i q

def Negotiation.identityAllowed (s : Negotiation) : Bool :=
  if s.identityNamed then s.identityOk else if s.wildcardSeen then s.wildcard ≠ 0 else true

def forWildcard (named : List ℕ) (i : ℕ) : Bool :=
  i < 32 && !named.contains i
    && ((enabledAt conf i).bind fun c => lookupEnabled conf c.coding.token) == some i
    && !tooShort conf clen i

/-- The pass for the wildcard, which stands for what the field does not name. -/
def Negotiation.choose (s : Negotiation) : ℕ :=
  if s.weight < s.wildcard then
    if s.identityNamed then
      ((List.range' 1 conf.length).find? (forWildcard conf clen s.named)).getD s.idx
    else 0
  else s.idx

/-- The elements of the field, a C string, without blanks. -/
def elements (token : Bytes) : List (Bytes × ℚ) :=
  (((token.takeWhile (· != 0)).filter fun c => c != 0x20 && c != 0x09).splitOn 0x2C).filterMap
    parseElement

def Negotiation.run (es : List (Bytes × ℚ)) : Negotiation :=
  es.foldl (fun (s : Negotiation) e => s.element conf clen e.1 e.2) {}

/-- `nxt_http_comp_negotiate`: the index of the coding, or a refusal, and
`identity_refused`.  Without compression `conf` is empty. -/
def negotiate (token : Bytes) : Option ℕ × Bool :=
  if token = [] then (some 0, false)
  else
    let s := Negotiation.run conf clen (elements token)
    let idx := s.choose conf clen
    (if idx = 0 ∧ s.identityAllowed = false then none else some idx, !s.identityAllowed)

end

/-! ### The field -/

/-- A weight: `0` or `1`, and at most three decimals. -/
structure Qvalue where
  one : Bool
  decimals : Option Bytes
  digits : ∀ ds ∈ decimals, ds.length ≤ 3 ∧ ∀ c ∈ ds, isDigit c = true
  le_one : (if one then 1 else 0) + fraction (decimals.getD []) ≤ 1

def Qvalue.value (w : Qvalue) : ℚ := (if w.one then 1 else 0) + fraction (w.decimals.getD [])

def Qvalue.text (w : Qvalue) : Bytes :=
  (if w.one then 0x31 else 0x30) :: w.decimals.elim [] fun ds => 0x2E :: ds

/-- An element: a coding or the wildcard, and its weight. -/
structure Item where
  name : Bytes
  weight : Option Qvalue
  upper : Bool
  name_ok : ∀ c ∈ name, c ≠ 0x2C ∧ c ≠ 0x3B ∧ c ≠ 0 ∧ c ≠ 0x20 ∧ c ≠ 0x09

def Item.value (i : Item) : ℚ := i.weight.elim 1 Qvalue.value

def Item.text (i : Item) : Bytes :=
  i.name ++ i.weight.elim [] fun w => 0x3B :: (if i.upper then 0x51 else 0x71) :: 0x3D :: w.text

/-- The field is a list of items; blanks may stand everywhere. -/
def IsField (token : Bytes) (items : List Item) : Prop :=
  items ≠ [] ∧ token.filter (fun c => c != 0x20 && c != 0x09) = [0x2C].intercalate (items.map Item.text)

inductive Name where
  | wildcard
  | identity
  | coding (c : Coding)
  deriving DecidableEq

def Name.token : Name → Bytes
  | .wildcard => str "*"
  | .identity => identityToken
  | .coding c => c.token

def Item.names (i : Item) (n : Name) : Bool := strcasestrEq i.name n.token

def Once (items : List Item) : Prop :=
  items.Pairwise fun a b => ∀ n, ¬ (a.names n = true ∧ b.names n = true)

def byName (items : List Item) (n : Name) : Option ℚ :=
  (items.find? (·.names n)).map Item.value

/-- The weight of a coding: that of its name, else that of the wildcard. -/
def weightOf (items : List Item) (n : Name) : Option ℚ :=
  (byName items n).or (byName items .wildcard)

/-- A coding is acceptable by its weight; identity also without one. -/
def Acceptable (items : List Item) (n : Name) : Prop :=
  match weightOf items n with
  | some q => q ≠ 0
  | none => n = .identity

/-- The codings of the server by their index: identity, and the enabled ones. -/
def codingAt (conf : List Compressor) : ℕ → Option Name
  | 0 => some .identity
  | i + 1 => (conf[i]?).map fun c => .coding c.coding

/-- The coding of an index can be applied to a body of this length. -/
structure Applicable (conf : List Compressor) (clen : ℤ) (i : ℕ) (n : Name) : Prop where
  coding : codingAt conf i = some n
  long : tooShort conf clen i = false

/-! ### Names -/

variable {n : Name} {enc : Bytes} {conf : List Compressor} {i : ℕ} {c : Compressor} {q : ℚ}
  {items : List Item}

theorem token_injective {m : Name} (h : strcasestrEq n.token m.token = true) : n = m := by
  have hall : ∀ c d : Coding, strcasestrEq c.token d.token = true → c = d := by
    intro c d
    cases c <;> cases d <;> decide
  match n, m with
  | .wildcard, .wildcard => rfl
  | .identity, .identity => rfl
  | .coding c, .coding d => exact congrArg Name.coding (hall c d h)
  | .wildcard, .identity | .identity, .wildcard => exact absurd h (by decide)
  | .wildcard, .coding c | .identity, .coding c =>
    revert h
    cases c <;> decide
  | .coding c, .wildcard | .coding c, .identity =>
    revert h
    cases c <;> decide

theorem name_unique {m : Name} (hn : strcasestrEq enc n.token = true)
    (hm : strcasestrEq enc m.token = true) : n = m := by
  rw [strcasestrEq, beq_iff_eq] at hn hm
  exact token_injective (beq_iff_eq.mpr (hn.symm.trans hm))

theorem eq_star_iff : enc = str "*" ↔ strcasestrEq enc Name.wildcard.token = true := by
  have hlow : ∀ c : UInt8, lowcase c = 0x2A ↔ c = 0x2A := by decide +kernel
  rw [strcasestrEq, beq_iff_eq]
  constructor
  · rintro rfl
    rfl
  · intro h
    obtain ⟨c, rfl, hc⟩ := map_eq_singleton_iff.mp (h : enc.map lowcase = [0x2A])
    exact congrArg (fun c => [c]) ((hlow c).mp hc)

/-- The index of a coding is that of its only compressor. -/
theorem lookupEnabled_eq_some_iff (hd : (conf.map (·.coding)).Nodup) :
    lookupEnabled conf enc = some i ↔
      ∃ c, enabledAt conf i = some c ∧ strcasestrEq enc c.coding.token = true := by
  cases i with
  | zero => simp [lookupEnabled, enabledAt]
  | succ i => ?_
  simp only [lookupEnabled, enabledAt, map_eq_some_iff, Nat.add_right_cancel_iff, exists_eq_right]
  rw [findIdx?_eq_some_iff_getElem]
  constructor
  · rintro ⟨hi, hc, -⟩
    exact ⟨conf[i], getElem?_eq_getElem hi, hc⟩
  · rintro ⟨c, hget, hc⟩
    obtain ⟨hi, rfl⟩ := List.getElem?_eq_some_iff.mp hget
    refine ⟨hi, hc, fun j hj hcj => ?_⟩
    -- an earlier entry of that name would be the same coding
    have hsame : conf[j].coding = conf[i].coding :=
      Name.coding.inj (name_unique (n := .coding _) (m := .coding _) hcj hc)
    have hij := (hd.get_inj_iff (i := ⟨j, by simp; omega⟩) (j := ⟨i, by simpa using hi⟩)).mp
      (by simpa using hsame)
    exact absurd (Fin.mk.inj hij) (by omega)

theorem codingAt_succ (h : codingAt conf (i + 1) = some n) :
    ∃ c, enabledAt conf (i + 1) = some c ∧ n = .coding c.coding := by
  obtain ⟨c, hc, hn⟩ := map_eq_some_iff.mp h
  exact ⟨c, hc, hn.symm⟩

theorem codingAt_of_enabledAt
    (h : enabledAt conf i = some c) : codingAt conf i = some (.coding c.coding) := by
  cases i with
  | zero => nomatch h
  | succ i => exact congrArg (Option.map fun c : Compressor => Name.coding c.coding) h

theorem lt_of_nodup (hd : (conf.map (·.coding)).Nodup)
    (h : enabledAt conf i = some c) : i < 32 := by
  have hcard : conf.length ≤ 4 := by
    have hall : ∀ c : Coding, c ∈ [Coding.deflate, .gzip, .zstd, .br] := by
      intro c
      cases c <;> decide
    have hsub := (subperm_of_subset hd fun c _ => hall c).length_le
    simpa using hsub
  cases i with
  | zero => omega
  | succ i => ?_
  have hi := (List.getElem?_eq_some_iff.mp (h : conf[i]? = some c)).1
  omega

/-! ### The loop -/

section

variable {conf : List Compressor} {clen : ℤ} {w : Name → Option ℚ} {s : Negotiation}

/-- The weight so far is the greatest that `w` gives by name, and that of the
coding so far. -/
structure Best (conf : List Compressor) (clen : ℤ) (w : Name → Option ℚ) (s : Negotiation) :
    Prop where
  le : ∀ i n q, Applicable conf clen i n → w n = some q → q ≤ s.weight
  chosen : s.weight ≠ 0 → ∃ n, Applicable conf clen s.idx n ∧ w n = some s.weight
  none_chosen : s.weight = 0 → s.idx = 0
  nonneg : 0 ≤ s.weight

/-- A name that cannot be applied does not matter. -/
theorem Best.skip (h : Best conf clen w s) (hn : ∀ j, ¬ Applicable conf clen j n)
    (v : Option ℚ) : Best conf clen (update w n v) s := by
  have hother : ∀ {j m}, Applicable conf clen j m → update w n v m = w m := by
    intro j m hm
    refine update_of_ne ?_ _ _
    rintro rfl
    exact hn j hm
  refine ⟨fun i m q hm hq => h.le i m q hm (hother hm ▸ hq), fun hw => ?_, h.none_chosen, h.nonneg⟩
  obtain ⟨m, hm, hwm⟩ := h.chosen hw
  exact ⟨m, hm, (hother hm).trans hwm⟩

/-- One that can is taken if it is not refused and as good. -/
theorem Best.take (h : Best conf clen w s) (hn : Applicable conf clen i n)
    (hw : w n = none) (hq : 0 ≤ q) : Best conf clen (update w n (some q)) (s.take i q) := by
  have hother : ∀ {m v}, w m = some v → update w n (some q) m = some v := by
    intro m v hm
    refine (update_of_ne ?_ _ _).trans hm
    rintro rfl
    exact nomatch hw.symm.trans hm
  have hcases : ∀ {m v}, update w n (some q) m = some v → v = q ∨ w m = some v := by
    intro m v hm
    rw [update_apply] at hm
    split at hm
    · exact .inl (some.inj hm).symm
    · exact .inr hm
  rw [Negotiation.take]
  split
  case isTrue hskip =>
    refine ⟨fun j m v hm hv => ?_, fun hne => ?_, h.none_chosen, h.nonneg⟩
    · rcases hcases hv with rfl | hv
      · rcases hskip with rfl | hlt
        · exact h.nonneg
        · exact hlt.le
      · exact h.le j m v hm hv
    · obtain ⟨m, hm, hwm⟩ := h.chosen hne
      exact ⟨m, hm, hother hwm⟩
  case isFalse hgood =>
    obtain ⟨hzero, hle⟩ := not_or.mp hgood
    refine ⟨fun j m v hm hv => ?_, fun _ => ⟨n, hn, update_self _ _ _⟩, fun h0 => absurd h0 hzero, hq⟩
    rcases hcases hv with rfl | hv
    · exact le_refl v
    · exact (h.le j m v hm hv).trans (not_lt.mp hle)

/-- **What the variables say about the elements read**: `w` has the weights they
gave by name. -/
structure Read (conf : List Compressor) (clen : ℤ) (w : Name → Option ℚ) (s : Negotiation) : Prop
    extends Best conf clen w s where
  identityNamed : s.identityNamed = (w .identity).isSome
  identityOk : ∀ q ∈ w .identity, s.identityOk = decide (q ≠ 0)
  wildcardSeen : s.wildcardSeen = (w .wildcard).isSome
  wildcard : s.wildcard = (w .wildcard).getD 0
  named : ∀ i c, enabledAt conf i = some c → (i ∈ s.named ↔ (w (.coding c.coding)).isSome = true)

theorem Read.start (conf : List Compressor) (clen : ℤ) : Read conf clen (fun _ => none) {} where
  le := nofun
  chosen h := absurd rfl h
  none_chosen _ := rfl
  nonneg := le_refl 0
  identityNamed := rfl
  identityOk := nofun
  wildcardSeen := rfl
  wildcard := rfl
  named := by simp

@[simp] theorem take_identityNamed (s : Negotiation) (i : ℕ) (q : ℚ) :
    (s.take i q).identityNamed = s.identityNamed := by
  unfold Negotiation.take
  split <;> rfl

@[simp] theorem take_identityOk (s : Negotiation) (i : ℕ) (q : ℚ) :
    (s.take i q).identityOk = s.identityOk := by
  unfold Negotiation.take
  split <;> rfl

@[simp] theorem take_wildcardSeen (s : Negotiation) (i : ℕ) (q : ℚ) :
    (s.take i q).wildcardSeen = s.wildcardSeen := by
  unfold Negotiation.take
  split <;> rfl

@[simp] theorem take_wildcard (s : Negotiation) (i : ℕ) (q : ℚ) :
    (s.take i q).wildcard = s.wildcard := by
  unfold Negotiation.take
  split <;> rfl

@[simp] theorem take_named (s : Negotiation) (i : ℕ) (q : ℚ) : (s.take i q).named = s.named := by
  unfold Negotiation.take
  split <;> rfl

theorem Read.wildcardElement (h : Read conf clen w s) (q : ℚ) :
    Read conf clen (update w .wildcard (some q))
      { s with wildcardSeen := true, wildcard := q } where
  toBest := by
    refine Best.skip (s := { s with wildcardSeen := true, wildcard := q })
      ⟨h.le, h.chosen, h.none_chosen, h.nonneg⟩ ?_ _
    rintro (_ | j) ⟨hj, -⟩
    · cases hj
    obtain ⟨c, -, hc⟩ := codingAt_succ hj
    cases hc
  identityNamed := h.identityNamed
  identityOk := h.identityOk
  wildcardSeen := by simp
  wildcard := by simp
  named := h.named

/-- An element with identity, which can always be applied. -/
theorem Read.identityElement (h : Read conf clen w s) (hw : w .identity = none) (hq : 0 ≤ q) :
    Read conf clen (update w .identity (some q))
      ({ s with identityNamed := true, identityOk := decide (q ≠ 0) }.take 0 q) where
  toBest := by
    refine Best.take (s := { s with identityNamed := true, identityOk := decide (q ≠ 0) })
      ⟨h.le, h.chosen, h.none_chosen, h.nonneg⟩ ⟨rfl, rfl⟩ hw hq
  identityNamed := by simp
  identityOk := by simp
  wildcardSeen := by simpa using h.wildcardSeen
  wildcard := by simpa using h.wildcard
  named := by simpa using h.named

section

variable (hd : (conf.map (·.coding)).Nodup)
include hd

/-- The index of an applicable coding is found by its name. -/
theorem lookupEnabled_of_applicable {j : ℕ} {c : Coding} (h : Applicable conf clen j (.coding c))
    (hc : strcasestrEq enc c.token = true) : lookupEnabled conf enc = some j := by
  obtain ⟨hj, -⟩ := h
  cases j with
  | zero => cases hj
  | succ j => ?_
  obtain ⟨d, hget, hname⟩ := codingAt_succ hj
  cases hname
  exact (lookupEnabled_eq_some_iff hd).mpr ⟨d, hget, hc⟩

theorem mem_named_update (h : Read conf clen w s) {j : ℕ} {d : Compressor}
    (hc : enabledAt conf i = some c) (hj : enabledAt conf j = some d) (q : ℚ) : (j ∈ i :: s.named) ↔
      (update w (.coding c.coding) (some q) (.coding d.coding)).isSome = true := by
  rw [mem_cons, h.named j d hj, update_apply]
  split
  case isTrue heq =>
    -- one index for one coding
    have hself : ∀ {i : ℕ} {e : Compressor}, enabledAt conf i = some e → e.coding = d.coding →
        lookupEnabled conf d.coding.token = some i := fun hi he =>
      (lookupEnabled_eq_some_iff hd).mpr ⟨_, hi, by rw [he, strcasestrEq, beq_self_eq_true]⟩
    have hij : j = i := some.inj
      ((hself hj rfl).symm.trans (hself hc (Name.coding.inj heq).symm))
    simp [hij]
  case isFalse hne =>
    have hij : j ≠ i := by
      rintro rfl
      exact hne (congrArg (fun c : Compressor => Name.coding c.coding)
        (some.inj (hj.symm.trans hc)))
    simp [hij]

theorem Read.enabledElement (h : Read conf clen w s) (hi : enabledAt conf i = some c)
    (hw : w (.coding c.coding) = none) (hq : 0 ≤ q) :
    Read conf clen (update w (.coding c.coding) (some q)) (s.enabled conf clen i q) := by
  have hbest : Best conf clen w { s with named := i :: s.named } :=
    ⟨h.le, h.chosen, h.none_chosen, h.nonneg⟩
  rw [Negotiation.enabled, if_pos (lt_of_nodup hd hi)]
  split
  case isTrue hshort =>
    refine ⟨hbest.skip ?_ _, h.identityNamed, h.identityOk, h.wildcardSeen, h.wildcard,
      fun j d hj => mem_named_update hd h hi hj q⟩
    intro j hj
    have hself : strcasestrEq c.coding.token c.coding.token = true := beq_self_eq_true _
    have hlook := (lookupEnabled_eq_some_iff hd).mpr ⟨c, hi, hself⟩
    have hij := some.inj ((lookupEnabled_of_applicable hd hj hself).symm.trans hlook)
    exact absurd (hij ▸ hj.long) (by simp [hshort])
  case isFalse hlong =>
    refine ⟨hbest.take ⟨codingAt_of_enabledAt hi, by simpa using hlong⟩ hw hq, ?_, ?_, ?_, ?_, ?_⟩
    · simpa using h.identityNamed
    · simpa using h.identityOk
    · simpa using h.wildcardSeen
    · simpa using h.wildcard
    · intro j d hj
      rw [take_named]
      exact mem_named_update hd h hi hj q

/-- An element with a coding that is not enabled. -/
theorem Read.unknownElement (h : Read conf clen w s) {c : Coding}
    (hc : strcasestrEq enc c.token = true) (hnone : lookupEnabled conf enc = none) (v : Option ℚ) :
    Read conf clen (update w (.coding c) v) s := by
  refine ⟨h.skip ?_ v, h.identityNamed, h.identityOk, h.wildcardSeen, h.wildcard, ?_⟩
  · intro j hj
    exact nomatch hnone.symm.trans (lookupEnabled_of_applicable hd hj hc)
  · intro i d hi
    rw [update_of_ne]
    · exact h.named i d hi
    · intro heq
      cases Name.coding.inj heq
      exact nomatch hnone.symm.trans ((lookupEnabled_eq_some_iff hd).mpr ⟨d, hi, hc⟩)

/-- **One element with a name.** -/
theorem Read.element (h : Read conf clen w s) (hn : strcasestrEq enc n.token = true)
    (hw : w n = none) (hq : 0 ≤ q) :
    Read conf clen (update w n (some q)) (s.element conf clen enc q) := by
  have hstar : n ≠ .wildcard → enc ≠ str "*" := fun hne heq =>
    hne (name_unique hn (eq_star_iff.mp heq))
  have hid : n ≠ .identity → ¬ strcasestrEq enc identityToken = true := fun hne heq =>
    hne (name_unique hn (m := .identity) heq)
  cases n with
  | wildcard =>
    rw [Negotiation.element, if_pos (eq_star_iff.mpr hn)]
    exact h.wildcardElement q
  | identity =>
    have hident : strcasestrEq enc identityToken = true := hn
    rw [Negotiation.element, if_neg (hstar nofun), if_pos hident]
    exact h.identityElement hw hq
  | coding c => ?_
  rw [Negotiation.element, if_neg (hstar nofun), if_neg (hid nofun)]
  cases hlook : lookupEnabled conf enc with
  | none => exact h.unknownElement hd hn hlook _
  | some i => ?_
  obtain ⟨d, hi, hd'⟩ := (lookupEnabled_eq_some_iff hd).mp hlook
  obtain rfl : c = d.coding :=
    Name.coding.inj (name_unique (n := .coding c) (m := .coding d.coding) hn hd')
  exact h.enabledElement hd hi hw hq

theorem element_unnamed (hn : ∀ n : Name, strcasestrEq enc n.token = false) (q : ℚ) :
    s.element conf clen enc q = s := by
  have hstar : enc ≠ str "*" := fun heq => absurd (eq_star_iff.mp heq) (by simp [hn])
  have hid : ¬ strcasestrEq enc identityToken = true := by
    rw [show strcasestrEq enc identityToken = false from hn .identity]
    simp
  rw [Negotiation.element, if_neg hstar, if_neg hid]
  cases hlook : lookupEnabled conf enc with
  | none => rfl
  | some i => ?_
  obtain ⟨d, -, hc⟩ := (lookupEnabled_eq_some_iff hd).mp hlook
  exact absurd hc (by simp [show strcasestrEq enc d.coding.token = false from hn (.coding _)])

end

theorem fraction_nonneg (ds : Bytes) : 0 ≤ fraction ds := by
  induction ds with
  | nil => exact le_refl 0
  | cons c ds ih => ?_
  rw [fraction]
  positivity

theorem Item.value_nonneg (i : Item) : 0 ≤ i.value := by
  rw [Item.value]
  cases i.weight with
  | none => exact zero_le_one
  | some v => ?_
  have hfrac := fraction_nonneg (v.decimals.getD [])
  change 0 ≤ v.value
  rw [Qvalue.value]
  split
  · positivity
  · simpa using hfrac

theorem byName_cons_of_names {i : Item} (h : i.names n = true) (items : List Item) :
    byName (i :: items) n = some i.value := by
  simp [byName, h]

theorem byName_cons_of_not {i : Item} (h : i.names n = false) (items : List Item) :
    byName (i :: items) n = byName items n := by
  simp [byName, h]

/-- **The loop**: it reads the weights by name. -/
theorem Read.run (hd : (conf.map (·.coding)).Nodup) (ho : Once items)
    (h : Read conf clen w s) (hw : ∀ i ∈ items, ∀ n, i.names n = true → w n = none) :
    Read conf clen (fun n => (w n).or (byName items n))
      ((items.map fun i => (i.name, i.value)).foldl
        (fun (s : Negotiation) e => s.element conf clen e.1 e.2) s) := by
  induction items generalizing w s with
  | nil =>
    have hsame : (fun n => (w n).or (byName [] n)) = w := funext fun n => or_none
    rw [hsame]
    exact h
  | cons i items ih => ?_
  obtain ⟨hfirst, hrest⟩ := pairwise_cons.mp ho
  rw [map_cons, foldl_cons]
  by_cases hnamed : ∃ n : Name, i.names n = true
  case pos =>
    obtain ⟨n, hn⟩ := hnamed
    have hnone : w n = none := hw i mem_cons_self n hn
    have hstep := h.element hd hn hnone i.value_nonneg
    have hrun := ih hrest hstep fun j hj m hm => by
      rw [update_of_ne]
      · exact hw j (mem_cons_of_mem _ hj) m hm
      rintro rfl
      exact hfirst j hj m ⟨hn, hm⟩
    have hsame : (fun m => (w m).or (byName (i :: items) m))
        = fun m => (update w n (some i.value) m).or (byName items m) := by
      funext m
      by_cases hm : m = n
      · subst hm
        rw [update_self, hnone, byName_cons_of_names hn]
        rfl
      have hother : i.names m = false := Bool.eq_false_iff.mpr fun hi => hm (name_unique hi hn)
      rw [update_of_ne hm, byName_cons_of_not hother]
    rw [hsame]
    exact hrun
  case neg =>
    have hnot : ∀ n : Name, i.names n = false := fun n =>
      Bool.eq_false_iff.mpr fun hn => hnamed ⟨n, hn⟩
    have hsame : (fun m => (w m).or (byName (i :: items) m))
        = fun m => (w m).or (byName items m) := by
      funext m
      rw [byName_cons_of_not (hnot m)]
    rw [element_unnamed hd hnot, hsame]
    exact ih hrest h fun j hj => hw j (mem_cons_of_mem _ hj)

/-! ### The answer -/

/-- The coding so far, with the weights of the names alone. -/
theorem Read.identityAllowed_iff (items : List Item) (h : Read conf clen (byName items) s) :
    s.identityAllowed = true ↔ Acceptable items .identity := by
  rw [Negotiation.identityAllowed, Acceptable, weightOf, h.identityNamed, h.wildcardSeen, h.wildcard]
  cases hid : byName items .identity with
  | some q => simp [h.identityOk q hid]
  | none => cases byName items .wildcard <;> simp

theorem forWildcard_iff (hd : (conf.map (·.coding)).Nodup) (h : Read conf clen (byName items) s) :
    forWildcard conf clen s.named i = true ↔
      ∃ c, Applicable conf clen i (.coding c) ∧ byName items (.coding c) = none := by
  have hself : ∀ c : Coding, strcasestrEq c.token c.token = true := fun c => beq_self_eq_true _
  simp only [forWildcard, Bool.and_eq_true, decide_eq_true_eq, Bool.not_eq_true', beq_iff_eq,
    bind_eq_some_iff]
  constructor
  · rintro ⟨⟨⟨-, hnamed⟩, c, hc, -⟩, hlong⟩
    refine ⟨c.coding, ⟨codingAt_of_enabledAt hc, hlong⟩, ?_⟩
    rw [← not_isSome_iff_eq_none, ← h.named i c hc]
    simpa using hnamed
  · rintro ⟨c, happ, hnone⟩
    have hlook := lookupEnabled_of_applicable hd happ (hself c)
    obtain ⟨d, hi, hcd⟩ := (lookupEnabled_eq_some_iff hd).mp hlook
    obtain rfl : c = d.coding :=
      Name.coding.inj (name_unique (n := .coding c) (m := .coding d.coding) (hself c) hcd)
    refine ⟨⟨⟨lt_of_nodup hd hi, ?_⟩, d, hi, hlook⟩, happ.long⟩
    have hnot : i ∉ s.named := by
      rw [h.named i d hi, hnone]
      simp
    simpa using hnot

theorem byName_nonneg (h : byName items n = some q) : 0 ≤ q := by
  obtain ⟨i, -, rfl⟩ := map_eq_some_iff.mp h
  exact i.value_nonneg

theorem weightOf_cases (h : weightOf items n = some q) :
    byName items n = some q ∨ byName items n = none ∧ byName items .wildcard = some q := by
  rcases or_eq_some_iff.mp h with h | h
  · exact .inl h
  · exact .inr h

theorem weightOf_nonneg (h : weightOf items n = some q) : 0 ≤ q := by
  rcases weightOf_cases h with h | ⟨-, h⟩
  · exact byName_nonneg h
  · exact byName_nonneg h

/-- The weight of `n` is maximal among the applicable codings that are accepted
by name or by the wildcard. -/
def Maximal (conf : List Compressor) (clen : ℤ) (items : List Item) (n : Name) : Prop :=
  ∀ j m q, Applicable conf clen j m → weightOf items m = some q → q ≠ 0 →
    ∃ r, weightOf items n = some r ∧ q ≤ r

/-- What the source promises of the index before the refusal. -/
def Chosen (conf : List Compressor) (clen : ℤ) (items : List Item) (i : ℕ) : Prop :=
  ∃ n, Applicable conf clen i n ∧ Maximal conf clen items n ∧ (i ≠ 0 → Acceptable items n)

theorem chosen_of_le {r : ℚ} (happ : Applicable conf clen i n)
    (hn : weightOf items n = some r) (hr : r ≠ 0)
    (hle : ∀ j m q, Applicable conf clen j m → weightOf items m = some q → q ≤ r) :
    Chosen conf clen items i := by
  refine ⟨n, happ, fun j m q hm hq _ => ⟨r, hn, hle j m q hm hq⟩, fun _ => ?_⟩
  rw [Acceptable, hn]
  exact hr

/-- The coding of the loop stays when no weight exceeds its weight. -/
theorem Read.chosen_idx (h : Read conf clen (byName items) s)
    (hle : ∀ j m q, Applicable conf clen j m → weightOf items m = some q → q ≤ s.weight) :
    Chosen conf clen items s.idx := by
  by_cases hzero : s.weight = 0
  case pos =>
    rw [h.none_chosen hzero]
    refine ⟨.identity, ⟨rfl, rfl⟩, fun j m q hm hq hne => ?_, fun hi => absurd rfl hi⟩
    -- an accepted coding would have been taken
    have hq0 : q = 0 := le_antisymm (hzero ▸ hle j m q hm hq) (weightOf_nonneg hq)
    exact absurd hq0 hne
  case neg =>
    obtain ⟨n, happ, hn⟩ := h.chosen hzero
    refine chosen_of_le happ ?_ hzero hle
    rw [weightOf, hn]
    rfl

/-- **The pass for the wildcard.** -/
theorem Read.chosen_choose (hd : (conf.map (·.coding)).Nodup)
    (h : Read conf clen (byName items) s) : Chosen conf clen items (s.choose conf clen) := by
  have hwild : ∀ {q}, byName items .wildcard = some q → s.wildcard = q := by
    intro q hq
    rw [h.wildcard, hq]
    rfl
  rw [Negotiation.choose]
  split
  case isFalse hlt =>
    refine h.chosen_idx fun j m q hm hq => ?_
    rcases weightOf_cases hq with hq | ⟨-, hq⟩
    · exact h.le j m q hm hq
    · exact hwild hq ▸ not_lt.mp hlt
  case isTrue hlt =>
    obtain ⟨v, hv⟩ : ∃ v, byName items .wildcard = some v := by
      cases hv : byName items .wildcard with
      | some v => exact ⟨v, rfl⟩
      | none => ?_
      rw [h.wildcard, hv] at hlt
      exact absurd h.nonneg (not_le.mpr hlt)
    have hs : s.wildcard = v := hwild hv
    have hpos : v ≠ 0 := ne_of_gt (h.nonneg.trans_lt (hs ▸ hlt))
    -- the wildcard outweighs every name
    have hle : ∀ j m q, Applicable conf clen j m → weightOf items m = some q → q ≤ v := by
      intro j m q hm hq
      rcases weightOf_cases hq with hq | ⟨-, hq⟩
      · exact (h.le j m q hm hq).trans (hs ▸ hlt).le
      · exact (some.inj (hq.symm.trans hv)).le
    have hweight : ∀ {n}, byName items n = none → weightOf items n = some v := by
      intro n hn
      rw [weightOf, hn, hv]
      rfl
    split
    case isFalse hid =>
      rw [h.identityNamed, not_isSome_iff_eq_none] at hid
      exact chosen_of_le ⟨rfl, rfl⟩ (hweight hid) hpos hle
    case isTrue hid =>
      rw [h.identityNamed, isSome_iff_exists] at hid
      obtain ⟨qi, hqi⟩ := hid
      cases hfind : (range' 1 conf.length).find? (forWildcard conf clen s.named) with
      | some i =>
        obtain ⟨c, happ, hc⟩ := (forWildcard_iff hd h).mp (find?_some hfind)
        exact chosen_of_le happ (hweight hc) hpos hle
      | none => ?_
      -- everything that can be applied has a name
      refine h.chosen_idx fun j m q hm hq => ?_
      rcases weightOf_cases hq with hq | ⟨hnone, -⟩
      · exact h.le j m q hm hq
      cases j with
      | zero =>
        cases hm.coding
        exact nomatch hnone.symm.trans hqi
      | succ j => ?_
      obtain ⟨c, hc, rfl⟩ := codingAt_succ hm.coding
      have hj : j < conf.length := (List.getElem?_eq_some_iff.mp (hc : conf[j]? = some c)).1
      have hmem : j + 1 ∈ range' 1 conf.length := mem_range'_1.mpr ⟨by omega, by omega⟩
      exact absurd ((forWildcard_iff hd h).mpr ⟨c.coding, hm, hnone⟩)
        (find?_eq_none.mp hfind _ hmem)

/-! ### The field as the source reads it -/

theorem findWeight_of_no_semicolon {name : Bytes} (h : ∀ c ∈ name, c ≠ 0x3B) :
    findWeight name = none := by
  induction name with
  | nil => rfl
  | cons c name ih => ?_
  obtain ⟨hc, hname⟩ := forall_mem_cons.mp h
  rw [findWeight, if_neg (fun hcond => hc hcond.1), ih hname]
  rfl

theorem findWeight_append {name : Bytes} (h : ∀ c ∈ name, c ≠ 0x3B) {c : UInt8}
    (hc : c = 0x71 ∨ c = 0x51) (text : Bytes) :
    findWeight (name ++ 0x3B :: c :: 0x3D :: text) = some (name, text) := by
  induction name with
  | nil =>
    rw [nil_append, findWeight, if_pos]
    · rfl
    · exact ⟨rfl, by simpa using hc, rfl⟩
  | cons d name ih => ?_
  obtain ⟨hd, hname⟩ := forall_mem_cons.mp h
  rw [cons_append, findWeight, if_neg (fun hcond => hd hcond.1), ih hname]
  rfl

theorem parseWeight_text (v : Qvalue) : parseWeight v.text = some v.value := by
  have hfirst : ∀ b : Bool, ¬ ((if b then 0x31 else 0x30 : UInt8) ≠ 0x30
      ∧ (if b then 0x31 else 0x30 : UInt8) ≠ 0x31) := by decide
  have hdigit : ∀ b : Bool, (((if b then 0x31 else 0x30 : UInt8) - 0x30).toNat : ℚ)
      = if b then 1 else 0 := by
    intro b
    cases b <;> simp
  have hone := v.le_one
  rw [Qvalue.text, parseWeight, if_neg (hfirst v.one), hdigit, Qvalue.value]
  cases hds : v.decimals with
  | none =>
    rw [hds] at hone
    simpa using hone
  | some ds => ?_
  rw [hds] at hone
  have hall : ∀ c ∈ ds, isDigit c = true := (v.digits ds hds).2
  have htake : ds.takeWhile isDigit = ds := takeWhile_eq_self_iff.mpr hall
  have hdrop : ds.dropWhile isDigit = [] := dropWhile_eq_nil_iff.mpr hall
  simpa [htake, hdrop] using hone

theorem parseElement_text (i : Item) : parseElement i.text = some (i.name, i.value) := by
  have hname : ∀ c ∈ i.name, c ≠ 0x3B := fun c hc => (i.name_ok c hc).2.1
  rw [parseElement, Item.text, Item.value]
  cases i.weight with
  | none =>
    rw [elim_none, append_nil, findWeight_of_no_semicolon hname]
    rfl
  | some v => ?_
  have hq : ∀ b : Bool, (if b then 0x51 else 0x71 : UInt8) = 0x71
      ∨ (if b then 0x51 else 0x71 : UInt8) = 0x51 := by decide
  rw [elim_some, findWeight_append hname (hq i.upper)]
  simp only [parseWeight_text, map_some, elim_some]

theorem Qvalue.text_byte (v : Qvalue) {c : UInt8} (hc : c ∈ v.text) : c ≠ 0x2C ∧ c ≠ 0 := by
  have hdigit : ∀ c : UInt8, isDigit c = true → c ≠ 0x2C ∧ c ≠ 0 := by grind [isDigit]
  have hfirst : ∀ b : Bool, (if b then 0x31 else 0x30 : UInt8) ≠ 0x2C
      ∧ (if b then 0x31 else 0x30 : UInt8) ≠ 0 := by decide
  rcases mem_cons.mp hc with rfl | hc
  · exact hfirst v.one
  cases hds : v.decimals with
  | none =>
    rw [hds] at hc
    cases hc
  | some ds => ?_
  rw [hds] at hc
  rcases mem_cons.mp hc with rfl | hc
  · decide
  · exact hdigit c ((v.digits ds hds).2 c hc)

theorem Item.text_byte (i : Item) {c : UInt8} (hc : c ∈ i.text) : c ≠ 0x2C ∧ c ≠ 0 := by
  rcases mem_append.mp hc with hc | hc
  · exact ⟨(i.name_ok c hc).1, (i.name_ok c hc).2.2.1⟩
  cases hw : i.weight with
  | none =>
    rw [hw] at hc
    cases hc
  | some v => ?_
  rw [hw] at hc
  simp only [elim_some, mem_cons] at hc
  rcases hc with rfl | rfl | rfl | hc
  · decide
  · cases i.upper <;> decide
  · decide
  · exact v.text_byte hc

/-- **The elements of the field.** -/
theorem elements_eq {token : Bytes} (h : IsField token items) :
    elements token = items.map fun i => (i.name, i.value) := by
  obtain ⟨hne, htext⟩ := h
  have hbytes : ∀ c ∈ [0x2C].intercalate (items.map Item.text), c ≠ 0 := by
    intro c hc
    rcases mem_intercalate hc with rfl | ⟨l, hl, hc⟩
    · decide
    obtain ⟨i, -, rfl⟩ := mem_map.mp hl
    exact (i.text_byte hc).2
  -- no byte of the field is NUL, so the C string is all of it
  have hnul : token.takeWhile (· != 0) = token := by
    refine takeWhile_eq_self_iff.mpr fun c hc => ?_
    by_cases hblank : c = 0
    · subst hblank
      exact absurd rfl (hbytes 0 (htext ▸ mem_filter.mpr ⟨hc, rfl⟩))
    · simpa using hblank
  have hsep : ∀ l ∈ items.map Item.text, (0x2C : UInt8) ∉ l := by
    intro l hl hc
    obtain ⟨i, -, rfl⟩ := mem_map.mp hl
    exact (i.text_byte hc).1 rfl
  rw [elements, hnul, htext, splitOn_intercalate _ hsep (by simpa using hne), filterMap_map]
  rw [← filterMap_eq_map]
  exact filterMap_congr fun i _ => parseElement_text i

theorem Read.run_field (hd : (conf.map (·.coding)).Nodup) {token : Bytes}
    (hf : IsField token items) (ho : Once items) :
    Read conf clen (byName items) (Negotiation.run conf clen (elements token)) := by
  have hrun := (Read.start conf clen).run hd ho fun _ _ _ _ => rfl
  rw [Negotiation.run, elements_eq hf]
  simpa using hrun

/-- The empty field has the answer that the loop gives. -/
theorem negotiate_eq (token : Bytes) : (negotiate conf clen token).1
      = if (Negotiation.run conf clen (elements token)).choose conf clen = 0
          ∧ (Negotiation.run conf clen (elements token)).identityAllowed = false then none
        else some ((Negotiation.run conf clen (elements token)).choose conf clen) := by
  rw [negotiate]
  split
  case isFalse => rfl
  case isTrue hempty =>
    have hunknown : lookupEnabled conf [] = none := by
      rw [lookupEnabled, findIdx?_eq_none_iff.mpr]
      · rfl
      intro c _
      cases c.coding <;> decide
    have hrun : Negotiation.run conf clen (elements token) = {} := by
      subst hempty
      have helem : elements [] = [([], 1)] := by decide
      have hstar : ([] : Bytes) ≠ str "*" := by decide
      have hid : ¬ strcasestrEq [] identityToken = true := by decide
      rw [helem, Negotiation.run, foldl_cons, foldl_nil, Negotiation.element, if_neg hstar,
        if_neg hid, hunknown]
    rw [hrun]
    rfl

end

/-- **The negotiated coding.**  For compressors of distinct codings and a field
that names nothing twice, the answer is a coding that can be applied, that the
client accepts, and whose weight no applicable coding accepted by name or by
wildcard exceeds; and there is a refusal exactly if no applicable coding, identity
among them, is acceptable. -/
theorem negotiate_spec {conf : List Compressor} (hd : (conf.map (·.coding)).Nodup) (clen : ℤ)
    {token : Bytes} {items : List Item} (hf : IsField token items) (ho : Once items) :
    (∀ i, (negotiate conf clen token).1 = some i →
      ∃ n, Applicable conf clen i n ∧ Acceptable items n ∧ Maximal conf clen items n) ∧
    ((negotiate conf clen token).1 = none ↔
      ∀ i n, Applicable conf clen i n → ¬ Acceptable items n) := by
  have hread : Read conf clen (byName items) _ := Read.run_field hd hf ho
  have hallowed := hread.identityAllowed_iff
  obtain ⟨n, happ, hmax, hacc⟩ := hread.chosen_choose hd
  rw [negotiate_eq]
  generalize hs : Negotiation.run conf clen (elements token) = s at hallowed happ hacc ⊢
  generalize s.choose conf clen = i at happ hacc ⊢
  have hzero : i = 0 → n = .identity := by
    rintro rfl
    exact (some.inj happ.coding).symm
  split
  case isTrue hrefused =>
    refine ⟨nofun, iff_of_true rfl fun j m hm hm' => ?_⟩
    have hnot : ¬ Acceptable items .identity := by
      rw [← hallowed, hrefused.2]
      simp
    cases hzero hrefused.1
    -- a coding with a weight would make identity the better one
    cases hw : weightOf items m with
    | none =>
      rw [Acceptable, hw] at hm'
      subst hm'
      exact hnot (by rw [Acceptable, hw])
    | some q => ?_
    have hm2 := hm'
    rw [Acceptable, hw] at hm2
    obtain ⟨r, hr, hqr⟩ := hmax j m q hm hw hm2
    refine hnot ?_
    rw [Acceptable, hr]
    exact ne_of_gt (((weightOf_nonneg hw).lt_of_ne (Ne.symm hm2)).trans_le hqr)
  case isFalse haccepted =>
    have hok : Acceptable items n := by
      by_cases hi : i = 0
      · rw [hzero hi, ← hallowed]
        exact Bool.eq_true_of_not_eq_false fun hfalse => haccepted ⟨hi, hfalse⟩
      · exact hacc hi
    refine ⟨?_, iff_of_false nofun fun hnone => hnone i n happ hok⟩
    rintro _ ⟨⟩
    exact ⟨n, happ, hok, hmax⟩

/-- `gzip;q=0.5, *;q=0` names gzip and the wildcard. -/
theorem negotiate_spec_gzip :
    ∃ n, Applicable [⟨.gzip, 20⟩] 100 1 n ∧ n = .coding .gzip := by
  let half : Qvalue := ⟨false, some [0x35], by decide +kernel, by decide +kernel⟩
  let zero : Qvalue := ⟨false, none, nofun, by decide +kernel⟩
  let items : List Item :=
    [⟨str "gzip", some half, false, by decide +kernel⟩, ⟨str "*", some zero, false, by decide +kernel⟩]
  have hd : (([⟨.gzip, 20⟩] : List Compressor).map (·.coding)).Nodup := by decide
  have hf : IsField (str "gzip;q=0.5, *;q=0") items := ⟨by simp [items], by decide +kernel⟩
  have ho : Once items := by
    refine pairwise_pair.mpr ?_
    rintro n ⟨hgzip, hstar⟩
    have h := name_unique (n := n) (m := .coding .gzip) hgzip (by decide)
    subst h
    exact absurd hstar (by decide +kernel)
  have hrun : (negotiate [⟨.gzip, 20⟩] 100 (str "gzip;q=0.5, *;q=0")).1 = some 1 := by
    decide +kernel
  obtain ⟨n, happ, -⟩ := (negotiate_spec hd 100 hf ho).1 1 hrun
  exact ⟨n, happ, (some.inj happ.coding).symm⟩

end FreeUnit.Compression
