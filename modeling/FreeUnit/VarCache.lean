/-
Variables of a request, `nxt_var.c`: references that templates were compiled to,
and the cache of their values.

* `refGet`, `compile` — `nxt_var_ref_get`, at run time and when templates are
  compiled;
* `cacheValue`, `lookup` — `nxt_var_cache_value`, and a lookup of a request;
* `run_isolated` — lookups give what the variable's own handler produced, as long
  as no handler of a cached variable fails and no reference without an index is
  cached.
-/
import FreeUnit.Bytes

namespace FreeUnit.Var

open List Function Option

/-! ### The source -/

/-- `nxt_murmur_hash2_uint32` -/
def murmurHash2 (data : UInt32) : UInt32 :=
  let m : UInt32 := 0x5BD1E995
  let k := data * m
  let k := k ^^^ (k >>> 24)
  let k := k * m
  let h := (4 * m) ^^^ k
  let h := h ^^^ (h >>> 13)
  let h := h * m
  h ^^^ (h >>> 15)

/-- `nxt_var_ref_t`; the handler is the one of the name. -/
structure VarRef where
  name : Bytes
  index : UInt32
  cacheable : Bool
  deriving DecidableEq

/-- `nxt_http_unknown_var_ref`: whether a reference to a field, an argument or a
cookie is cached. -/
def unknownVarRef (name : Bytes) : Option Bool :=
  if (str "response_header_").isPrefixOf name then if name.length = 16 then none else some false
  else if (str "header_").isPrefixOf name then if name.length = 7 then none else some true
  else if (str "arg_").isPrefixOf name then if name.length = 4 then none else some true
  else if (str "cookie_").isPrefixOf name then if name.length = 7 then none else some true
  else none

section

variable (decls : Bytes → Option Bool)

/-- `nxt_var_ref_get` when a template is compiled: a new reference has the next
index. -/
def compileRef (refs : List VarRef) (name : Bytes) : Option (List VarRef) :=
  if refs.any (·.name == name) then some refs
  else if 2 ^ 32 ≤ refs.length + 1 then none
  else
    match (decls name).or (unknownVarRef name) with
    | some cacheable => some (refs ++ [⟨name, UInt32.ofNat refs.length, cacheable⟩])
    | none => none

def compile : List Bytes → List VarRef → Option (List VarRef)
  | [], refs => some refs
  | name :: names, refs =>
    match compileRef decls refs name with
    | none => none
    | some refs => compile names refs

/-- `nxt_var_ref_get` at run time: a reference that is not among those of the
templates gets the bytes of fresh memory for its index. -/
def refGet (refs : List VarRef) (name : Bytes) (stale : UInt32) : Option VarRef :=
  match refs.find? (·.name == name) with
  | some ref => some ref
  | none =>
    match decls name with
    | some _ => some ⟨name, stale, false⟩
    | none => (unknownVarRef name).map fun cacheable => ⟨name, stale, cacheable⟩

end

/-- What a handler does: a value, or a failure that leaves some bytes. -/
inductive Handled where
  | ok (value : Bytes)
  | error (junk : Bytes)

structure Env where
  /-- The bytes of fresh memory. -/
  stale : UInt32
  allocRef : Bool := true
  allocValue : Bool := true
  /-- Memory for the hash. -/
  allocHash : Bool := true
  handled : Handled

/-- `nxt_var_cache_t`: the test of the hash is always true, so an entry is found
by its hash alone; `count` counts the values that were given out. -/
structure Cache where
  hash : UInt32 → Option ℕ := fun _ => none
  spare : Option ℕ := none
  count : ℕ := 0
  values : ℕ → Bytes := fun _ => []

/-- The cache of a request, and what the handlers of each variable produced. -/
structure State where
  cache : Cache := {}
  produced : Bytes → List Bytes := fun _ => []

def Cache.getSpare (c : Cache) (alloc : Bool) : Option (ℕ × Cache) :=
  match c.spare with
  | some slot => some (slot, c)
  | none =>
    -- the first ones are inside of the cache, without an allocation
    if c.count < 8 || alloc then
      some (c.count, { c with
        spare := some c.count
        count := c.count + 1
        values := Function.update c.values c.count [] })
    else none

/-- The handler of `name` is called for `slot`. -/
def State.call (s : State) (name : Bytes) (slot : ℕ) : Handled → Option Bytes × State
  | .ok value =>
    (some value,
      { cache := { s.cache with values := Function.update s.cache.values slot value, spare := none }
        produced := Function.update s.produced name (s.produced name ++ [value]) })
  | .error junk =>
    (none, { s with cache := { s.cache with values := Function.update s.cache.values slot junk } })

def cacheValue (s : State) (ref : VarRef) (env : Env) : Option Bytes × State :=
  match s.cache.getSpare env.allocValue with
  | none => (none, s)
  | some (slot, c) =>
    let s := { s with cache := c }
    if ref.cacheable then
      match c.hash (murmurHash2 ref.index) with
      | some old => (some (c.values old), s)
      | none =>
        if env.allocHash then
          State.call { s with cache := { c with
            hash := Function.update c.hash (murmurHash2 ref.index) (some slot) } }
            ref.name slot env.handled
        else (none, s)
    else s.call ref.name slot env.handled

/-- A lookup by a template, or by name with `nxt_var_get`. -/
inductive Lookup where
  | template (i : ℕ)
  | byName (name : Bytes)

section

variable (decls : Bytes → Option Bool) (refs : List VarRef)

def Lookup.ref (env : Env) : Lookup → Option VarRef
  | .template i => refs[i]?
  | .byName name => if env.allocRef then refGet decls refs name env.stale else none

def lookup (s : State) (l : Lookup) (env : Env) : Option Bytes × State :=
  match l.ref decls refs env with
  | none => (none, s)
  | some ref => cacheValue s ref env

def run (s : State) : List (Lookup × Env) → State
  | [] => s
  | (l, env) :: rest => run (lookup decls refs s l env).2 rest

end

/-! ### The hash -/

theorem mul_murmur_injective : Function.Injective fun k : UInt32 => k * 0x5BD1E995 := by
  intro a b h
  have hinv : ∀ k : UInt32, k * 0x5BD1E995 * 0xE59B19BD = k := by
    intro k
    rw [UInt32.mul_assoc]
    have hone : (0x5BD1E995 : UInt32) * 0xE59B19BD = 1 := by decide
    rw [hone, UInt32.mul_one]
  have := congrArg (· * (0xE59B19BD : UInt32)) h
  simpa only [hinv] using this

/-- A word is known from itself and its upper bits. -/
theorem xorShift_injective {n : UInt32} (hn : n.toNat % 32 ≠ 0) :
    Function.Injective fun h : UInt32 => h ^^^ (h >>> n) := by
  intro a b h
  -- the difference is its own upper bits
  have hd : (a ^^^ b).toNat = (a ^^^ b).toNat / 2 ^ (n.toNat % 32) := by
    have h' := congrArg UInt32.toNat h
    simp only [UInt32.toNat_xor, UInt32.toNat_shiftRight] at h' ⊢
    have hx : a.toNat ^^^ b.toNat =
        (a.toNat >>> (n.toNat % 32)) ^^^ (b.toNat >>> (n.toNat % 32)) := by
      generalize a.toNat >>> (n.toNat % 32) = a' at h' ⊢
      generalize b.toNat >>> (n.toNat % 32) = b' at h' ⊢
      calc a.toNat ^^^ b.toNat = (a.toNat ^^^ a') ^^^ (a' ^^^ b.toNat) := by
            rw [Nat.xor_assoc, ← Nat.xor_assoc a' a', Nat.xor_self, Nat.zero_xor]
        _ = (b.toNat ^^^ b') ^^^ (a' ^^^ b.toNat) := by rw [h']
        _ = a' ^^^ b' := by
            rw [Nat.xor_comm b.toNat b', Nat.xor_assoc, Nat.xor_comm a' b.toNat,
              ← Nat.xor_assoc b.toNat, Nat.xor_self, Nat.zero_xor, Nat.xor_comm]
    rw [← Nat.shiftRight_eq_div_pow, Nat.shiftRight_xor_distrib, ← hx]
  have hzero : (a ^^^ b).toNat = 0 := by
    by_contra hne
    have hlt : (a ^^^ b).toNat / 2 ^ (n.toNat % 32) < (a ^^^ b).toNat :=
      Nat.div_lt_self (Nat.pos_of_ne_zero hne) (Nat.one_lt_two_pow hn)
    omega
  have hxor : a ^^^ b = 0 := UInt32.toNat_inj.mp hzero
  exact UInt32.xor_eq_zero_iff.mp hxor

/-- **Two indexes have two places in the cache.** -/
theorem murmurHash2_injective : Function.Injective murmurHash2 := by
  have hxor : Function.Injective fun k : UInt32 => (4 * 0x5BD1E995) ^^^ k :=
    fun _ _ h => (UInt32.xor_right_inj _).mp h
  have h24 : Function.Injective fun h : UInt32 => h ^^^ (h >>> 24) := xorShift_injective (by decide)
  have h13 : Function.Injective fun h : UInt32 => h ^^^ (h >>> 13) := xorShift_injective (by decide)
  have h15 : Function.Injective fun h : UInt32 => h ^^^ (h >>> 15) := xorShift_injective (by decide)
  exact h15.comp (mul_murmur_injective.comp (h13.comp (hxor.comp
    (mul_murmur_injective.comp (h24.comp mul_murmur_injective)))))

/-! ### The references -/

structure Numbered (refs : List VarRef) : Prop where
  index : ∀ i ref, refs[i]? = some ref → ref.index = UInt32.ofNat i
  small : refs.length < 2 ^ 32
  name : ∀ r ∈ refs, ∀ r' ∈ refs, r.name = r'.name → r = r'

theorem Numbered.index_inj {refs : List VarRef} (h : Numbered refs) {r r' : VarRef} (hr : r ∈ refs)
    (hr' : r' ∈ refs) (heq : r.index = r'.index) : r = r' := by
  obtain ⟨i, hi⟩ := mem_iff_getElem?.mp hr
  obtain ⟨j, hj⟩ := mem_iff_getElem?.mp hr'
  have hlt : i < refs.length := (List.getElem?_eq_some_iff.mp hi).1
  have hlt' : j < refs.length := (List.getElem?_eq_some_iff.mp hj).1
  rw [h.index i r hi, h.index j r' hj] at heq
  have hnat := congrArg UInt32.toNat heq
  have hsmall := h.small
  rw [UInt32.toNat_ofNat', UInt32.toNat_ofNat', Nat.mod_eq_of_lt (by omega),
    Nat.mod_eq_of_lt (by omega)] at hnat
  subst hnat
  rw [hi, some.injEq] at hj
  exact hj

variable {name : Bytes}

theorem numbered_compileRef {decls : Bytes → Option Bool} {refs refs' : List VarRef}
    (h : Numbered refs) (hc : compileRef decls refs name = some refs') : Numbered refs' := by
  unfold compileRef at hc
  split at hc
  · rw [some.injEq] at hc
    exact hc ▸ h
  rename_i hnew
  split at hc
  · cases hc
  rename_i hroom
  split at hc
  · rename_i cacheable _
    rw [some.injEq] at hc
    subst hc
    have hfresh : ∀ r ∈ refs, r.name ≠ name := by
      intro r hr heq
      exact hnew (any_eq_true.mpr ⟨r, hr, beq_iff_eq.mpr heq⟩)
    refine ⟨fun i ref hi => ?_, ?_, ?_⟩
    · by_cases hlt : i < refs.length
      · rw [getElem?_append_left hlt] at hi
        exact h.index i ref hi
      rw [getElem?_append_right (not_lt.mp hlt)] at hi
      have hone : i - refs.length < 1 := (List.getElem?_eq_some_iff.mp hi).1
      have hi' : i = refs.length := by omega
      subst hi'
      rw [Nat.sub_self, getElem?_cons_zero, some.injEq] at hi
      rw [← hi]
    · rw [length_append, length_singleton]
      omega
    · intro r hr r' hr' heq
      rw [mem_append, mem_singleton] at hr hr'
      rcases hr with hr | rfl
      · rcases hr' with hr' | rfl
        · exact h.name r hr r' hr' heq
        · exact absurd heq (hfresh r hr)
      rcases hr' with hr' | rfl
      · exact absurd heq.symm (hfresh r' hr')
      · rfl
  · cases hc

theorem numbered_compile {decls : Bytes → Option Bool} {names : List Bytes} {refs refs' : List VarRef}
    (h : Numbered refs) (hc : compile decls names refs = some refs') : Numbered refs' := by
  induction names generalizing refs with
  | nil =>
    obtain rfl : refs = refs' := by simpa [compile] using hc
    exact h
  | cons name names ih => ?_
  rw [compile] at hc
  split at hc
  · cases hc
  rename_i hone
  exact ih (numbered_compileRef h hone) hc

theorem numbered_nil : Numbered [] where
  index := by simp
  small := by decide
  name := by simp

/-! ### The cache -/

/-- Every entry is a value that the handler of its variable produced, and no
handler will write to it. -/
structure Inv (refs : List VarRef) (s : State) : Prop where
  entry : ∀ k slot, s.cache.hash k = some slot → slot < s.cache.count ∧ s.cache.spare ≠ some slot ∧
    ∃ ref ∈ refs, murmurHash2 ref.index = k ∧ s.cache.values slot ∈ s.produced ref.name
  spare : ∀ slot, s.cache.spare = some slot → slot < s.cache.count

/-- What a lookup of `name` has to give. -/
structure Isolated (name : Bytes) (s : State) (r : Option Bytes × State) : Prop where
  value : ∀ v, r.1 = some v → v ∈ r.2.produced name
  failed : r.1 = none → r.2.cache.hash = s.cache.hash

variable {s : State} {slot : ℕ}

theorem Inv.getSpare {refs : List VarRef} (h : Inv refs s) {alloc : Bool} {c : Cache}
    (hs : s.cache.getSpare alloc = some (slot, c)) :
    Inv refs { s with cache := c } ∧ c.hash = s.cache.hash ∧ c.spare = some slot := by
  unfold Cache.getSpare at hs
  split at hs
  · rename_i slot' hspare
    rw [some.injEq, Prod.mk.injEq] at hs
    obtain ⟨rfl, rfl⟩ := hs
    exact ⟨h, rfl, hspare⟩
  rename_i hspare
  split at hs
  · rw [some.injEq, Prod.mk.injEq] at hs
    obtain ⟨rfl, rfl⟩ := hs
    refine ⟨⟨fun k slot hk => ?_, fun slot hk => ?_⟩, rfl, rfl⟩
    · obtain ⟨hlt, -, ref, href, hkey, hvalue⟩ := h.entry k slot hk
      have hne : slot ≠ s.cache.count := by omega
      refine ⟨Nat.lt_succ_of_lt hlt, ?_, ref, href, hkey, ?_⟩
      · rw [Ne, some.injEq]
        exact fun heq => hne heq.symm
      · dsimp only
        rwa [update_of_ne hne]
    · rw [some.injEq] at hk
      exact hk ▸ Nat.lt_succ_self _
  · cases hs

/-- The handler is called for a value that no entry has. -/
theorem Inv.call {refs : List VarRef} (h : Inv refs s) (hspare : s.cache.spare = some slot)
    (name : Bytes) (handled : Handled) :
    Inv refs (s.call name slot handled).2 ∧ Isolated name s (s.call name slot handled) := by
  have hother : ∀ k slot', s.cache.hash k = some slot' → slot' ≠ slot := by
    intro k slot' hk heq
    exact (h.entry k slot' hk).2.1 (heq ▸ hspare)
  cases handled with
  | ok value =>
    refine ⟨⟨fun k slot' hk => ?_, fun slot' hk => (nomatch hk)⟩, fun v hv => ?_, fun hnone => (nomatch hnone)⟩
    · obtain ⟨hlt, -, ref, href, hkey, hvalue⟩ := h.entry k slot' hk
      refine ⟨hlt, by simp [State.call], ref, href, hkey, ?_⟩
      simp only [State.call, update_of_ne (hother k slot' hk)]
      by_cases hname : ref.name = name
      · rw [hname, update_self]
        exact mem_append_left _ (hname ▸ hvalue)
      · rwa [update_of_ne hname]
    · obtain rfl : value = v := by simpa [State.call] using hv
      simp [State.call]
  | error junk => ?_
  refine ⟨⟨fun k slot' hk => ?_, h.spare⟩, fun v hv => (nomatch hv), fun _ => rfl⟩
  obtain ⟨hlt, hne, ref, href, hkey, hvalue⟩ := h.entry k slot' hk
  refine ⟨hlt, hne, ref, href, hkey, ?_⟩
  simpa only [State.call, update_of_ne (hother k slot' hk)] using hvalue

variable {ref : VarRef}

theorem Inv.insert {refs : List VarRef} (h : Inv refs s) (hspare : s.cache.spare = some slot)
    (href : ref ∈ refs) (value : Bytes) : let s' := { s with cache := { s.cache with
      hash := update s.cache.hash (murmurHash2 ref.index) (some slot) } }
    Inv refs (s'.call ref.name slot (.ok value)).2 := by
  intro s'
  obtain ⟨hinv, -⟩ := h.call hspare ref.name (.ok value)
  refine ⟨fun k slot' hk => ?_, fun slot' hk => (nomatch hk)⟩
  by_cases hkey : k = murmurHash2 ref.index
  · -- the new entry
    have hslot : slot = slot' := by
      simpa [s', State.call, hkey] using hk
    subst hslot
    refine ⟨h.spare slot hspare, by simp [State.call], ref, href, hkey.symm, ?_⟩
    simp [s', State.call]
  have hold : s.cache.hash k = some slot' := by
    simpa [s', State.call, update_of_ne hkey] using hk
  exact hinv.entry k slot' hold

/-! ### The lookups of a request -/

section Run

variable {decls : Bytes → Option Bool} {refs : List VarRef}

def Lookup.Of (refs : List VarRef) (name : Bytes) : Lookup → Prop
  | .template i => (refs[i]?).map (·.name) = some name
  | .byName n => n = name

/-- A lookup of a cached variable goes through a reference of the templates, and
the handler does not fail. -/
def Careful (decls : Bytes → Option Bool) (refs : List VarRef) (l : Lookup) (env : Env) : Prop :=
  ∀ ref, l.ref decls refs env = some ref → ref.cacheable = true →
    ref ∈ refs ∧ ∃ value, env.handled = .ok value

theorem refGet_name {stale : UInt32} (h : refGet decls refs name stale = some ref) :
    ref.name = name := by
  unfold refGet at h
  split at h
  · rename_i found hfind
    rw [some.injEq] at h
    subst h
    have hname := find?_some hfind
    exact beq_iff_eq.mp hname
  split at h
  · rw [some.injEq] at h
    rw [← h]
  obtain ⟨cacheable, -, rfl⟩ := map_eq_some_iff.mp h
  rfl

theorem Lookup.Of.name_eq {l : Lookup} {env : Env} (hl : l.Of refs name)
    (href : l.ref decls refs env = some ref) : ref.name = name := by
  cases l with
  | template i =>
    rw [Lookup.ref] at href
    rw [Lookup.Of, href, map_some, some.injEq] at hl
    exact hl
  | byName n => ?_
  rw [Lookup.ref] at href
  split at href
  · exact (refGet_name href).trans hl
  · cases href

/-- **One lookup** keeps the cache, and gives what the handler of its variable
produced. -/
theorem Inv.lookup (hrefs : Numbered refs) (h : Inv refs s) {l : Lookup} {env : Env}
    (hcare : Careful decls refs l env) : Inv refs (lookup decls refs s l env).2 ∧
      ∀ name, l.Of refs name → Isolated name s (lookup decls refs s l env) := by
  unfold Var.lookup
  split
  · exact ⟨h, fun _ _ => ⟨fun v hv => (nomatch hv), fun _ => rfl⟩⟩
  rename_i ref href
  suffices hone : Inv refs (cacheValue s ref env).2 ∧ Isolated ref.name s (cacheValue s ref env) from
    ⟨hone.1, fun name hl => hl.name_eq href ▸ hone.2⟩
  have hcared := hcare ref href
  unfold cacheValue
  split
  · exact ⟨h, fun v hv => (nomatch hv), fun _ => rfl⟩
  rename_i slot c hspare
  obtain ⟨hinv, hhash, hslot⟩ := h.getSpare hspare
  split
  · rename_i hcache
    obtain ⟨hmem, value, hvalue⟩ := hcared hcache
    split
    · -- an entry: it is this variable's
      rename_i old hold
      refine ⟨hinv, fun v hv => ?_, fun hnone => (nomatch hnone)⟩
      obtain ⟨-, -, ref', href', hkey, hprod⟩ := hinv.entry _ old hold
      obtain rfl := hrefs.index_inj href' hmem (murmurHash2_injective hkey)
      obtain rfl : c.values old = v := by simpa using hv
      exact hprod
    split
    · rw [hvalue]
      refine ⟨hinv.insert hslot hmem value, fun v hv => ?_, fun hnone => (nomatch hnone)⟩
      obtain rfl : value = v := by simpa [State.call] using hv
      simp [State.call]
    · exact ⟨hinv, fun v hv => (nomatch hv), fun _ => hhash⟩
  obtain ⟨hcall, hvalue, hfailed⟩ := hinv.call hslot ref.name env.handled
  exact ⟨hcall, hvalue, fun hnone => (hfailed hnone).trans hhash⟩

/-- Every lookup of a request gives what the handler of its variable produced
for this request, and a failed one leaves no entry. -/
def AllIsolated (decls : Bytes → Option Bool) (refs : List VarRef) :
    State → List (Lookup × Env) → Prop
  | _, [] => True
  | s, (l, env) :: rest =>
    (∀ name, l.Of refs name → Isolated name s (lookup decls refs s l env)) ∧
      AllIsolated decls refs (lookup decls refs s l env).2 rest

theorem Inv.allIsolated (hrefs : Numbered refs) (h : Inv refs s) {events : List (Lookup × Env)}
    (hcare : ∀ e ∈ events, Careful decls refs e.1 e.2) : AllIsolated decls refs s events := by
  induction events generalizing s with
  | nil => trivial
  | cons e events ih => ?_
  obtain ⟨l, env⟩ := e
  obtain ⟨hinv, hone⟩ := h.lookup hrefs (hcare _ mem_cons_self)
  exact ⟨hone, ih hinv fun e he => hcare e (mem_cons_of_mem _ he)⟩

end Run

theorem inv_init (refs : List VarRef) : Inv refs {} := by
  constructor
  · intro k slot hk
    cases hk
  · intro slot hk
    cases hk

/-- **Variables do not mix**, in any sequence of lookups in which no handler of a
cached variable fails and no reference without an index is cached. -/
theorem run_isolated {decls : Bytes → Option Bool} {names : List Bytes} {refs : List VarRef}
    (hc : compile decls names [] = some refs) {events : List (Lookup × Env)}
    (hcare : ∀ e ∈ events, Careful decls refs e.1 e.2) : AllIsolated decls refs {} events :=
  (inv_init refs).allIsolated (numbered_compile numbered_nil hc) hcare

/-- Two arguments in a template, one of them looked up again by name. -/
theorem run_isolated_args :
    AllIsolated (fun _ => none) [⟨str "arg_a", 0, true⟩, ⟨str "arg_b", 1, true⟩] {}
      [(.template 0, { stale := 0, handled := .ok (str "1") }),
        (.template 1, { stale := 0, handled := .ok (str "2") }),
        (.byName (str "arg_a"), { stale := 1, handled := .ok (str "3") })] := by
  refine run_isolated (show compile _ [str "arg_a", str "arg_b"] [] = _ by decide) ?_
  intro e he ref href hcache
  simp only [mem_cons, not_mem_nil, or_false] at he
  rcases he with rfl | rfl | rfl
  · obtain rfl := some.inj href
    exact ⟨by decide, _, rfl⟩
  · obtain rfl := some.inj href
    exact ⟨by decide, _, rfl⟩
  · obtain rfl := some.inj href
    exact ⟨by decide, _, rfl⟩

/-- After the handler of one argument failed, the argument has the value of
another one; and an argument that only a lookup by name names has the value of
the variable whose index its memory shows. -/
theorem lookup_other_value :
    let refs : List VarRef := [⟨str "arg_a", 0, true⟩, ⟨str "arg_b", 1, true⟩]
    compile (fun _ => none) [str "arg_a", str "arg_b"] [] = some refs ∧
    (let s := run (fun _ => none) refs {}
        [(.template 0, { stale := 0, handled := .error [] }),
          (.template 1, { stale := 0, handled := .ok (str "2") })]
      let r := lookup (fun _ => none) refs s (.template 0) { stale := 0, handled := .ok (str "1") }
      r.1 = some (str "2") ∧ r.2.produced (str "arg_a") = []) ∧
    (let s := run (fun _ => none) refs {} [(.template 0, { stale := 0, handled := .ok (str "1") })]
      let r := lookup (fun _ => none) refs s (.byName (str "arg_c"))
        { stale := 0, handled := .ok (str "3") }
      r.1 = some (str "1") ∧ r.2.produced (str "arg_c") = []) := by
  decide

end FreeUnit.Var
