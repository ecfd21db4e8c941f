/-
Arguments and cookies: `nxt_http_arguments_parse` and `nxt_http_cookies_parse`.

The source reads a query in one pass that decodes it in place, splits it and
hashes the names.  A cookie line is split at its semicolons.

* `arguments_eq` — the arguments of a query are those of its pieces between
  ampersands, cut at the first equals sign and then decoded;
* `NameValue.ofPair` — an element carries the hash of its name, and sixteen
  bits of the length of the name.
-/
import FreeUnit.FieldTable

namespace FreeUnit

open List

def nameHash (name : Bytes) : UInt16 :=
  httpFieldHashEnd (name.foldl httpFieldHashChar httpFieldHashInit)

/-- `nxt_http_name_value_t`: the bytes at `name` and `value`, and the lengths the
element has room for. -/
structure NameValue where
  hash : UInt16
  nameLength : UInt16
  valueLength : UInt32
  name : Bytes
  value : Bytes
  deriving DecidableEq

def NameValue.ofPair (name value : Bytes) : NameValue :=
  { hash := nameHash name, nameLength := UInt16.ofNat name.length,
    valueLength := UInt32.ofNat value.length, name := name, value := value }

/-! ### Arguments -/

/-- The variables of `nxt_http_arguments_parse`: `cur` is what stands from
`dst_start` to `dst`. -/
structure ArgState where
  hash : UInt32 := httpFieldHashInit
  name : Option Bytes := none
  cur : Bytes := []
  decoded : Bytes := []
  args : List NameValue := []

namespace ArgState

/-- A byte of a name or a value; the bytes of a name are hashed. -/
def put (st : ArgState) (c : UInt8) : ArgState :=
  { st with
    hash := if st.name.isNone then httpFieldHashChar st.hash c else st.hash
    cur := st.cur ++ [c]
    decoded := st.decoded ++ [c] }

/-- `case '='` -/
def equals (st : ArgState) : ArgState :=
  match st.name with
  | none => { st with name := some st.cur, cur := [], decoded := st.decoded ++ [0x3D] }
  | some _ => { st with cur := st.cur ++ [0x3D], decoded := st.decoded ++ [0x3D] }

/-- `nxt_http_argument`, for an argument that is not empty. -/
def argument (st : ArgState) : List NameValue :=
  match st.name with
  | none =>
    if st.cur = [] then []
    else
      [{ hash := httpFieldHashEnd st.hash, nameLength := UInt16.ofNat st.cur.length,
         valueLength := 0, name := st.cur, value := [] }]
  | some name =>
    if name = [] ∧ st.cur = [] then []
    else
      [{ hash := httpFieldHashEnd st.hash, nameLength := UInt16.ofNat name.length,
         valueLength := UInt32.ofNat st.cur.length, name := name, value := st.cur }]

/-- `case '&'` -/
def ampersand (st : ArgState) : ArgState :=
  { decoded := st.decoded ++ [0x26], args := st.args ++ st.argument }

end ArgState

/-- The loop of `nxt_http_arguments_parse`. -/
def argLoop : ArgState → Bytes → ArgState
  | st, [] => st
  | st, 0x25 :: hi :: lo :: s =>
    match hexDigit hi, hexDigit lo with
    | some d0, some d1 => argLoop (st.put ((d0 <<< 4) + d1)) s
    | _, _ => argLoop (st.put 0x25) (hi :: lo :: s)
  | st, c :: s =>
    if c = 0x3D then argLoop st.equals s
    else if c = 0x26 then argLoop st.ampersand s
    else argLoop (st.put (if c = 0x2B then 0x20 else c)) s

/-- `nxt_http_arguments_parse`: the arguments and `args_decoded`; without a query
there is no buffer. -/
def argumentsParse : Option Bytes → List NameValue × Option Bytes
  | none => ([], none)
  | some query =>
    let st := argLoop {} query
    (st.args ++ st.argument, some st.decoded)

/-! ### The arguments of a query -/

def argDecode : Bytes → Bytes
  | [] => []
  | 0x25 :: hi :: lo :: s =>
    match hexDigit hi, hexDigit lo with
    | some d0, some d1 => ((d0 <<< 4) + d1) :: argDecode s
    | _, _ => 0x25 :: argDecode (hi :: lo :: s)
  | c :: s => (if c = 0x2B then 0x20 else c) :: argDecode s

def argumentOf (piece : Bytes) : Option NameValue :=
  let name := argDecode (piece.takeWhile (· != 0x3D))
  let value := argDecode ((piece.dropWhile (· != 0x3D)).drop 1)
  if name = [] ∧ value = [] then none else some (.ofPair name value)

def arguments (query : Bytes) : List NameValue := (query.splitOn 0x26).filterMap argumentOf

variable {st : ArgState}

namespace ArgState

def puts (st : ArgState) (cs : Bytes) : ArgState := cs.foldl put st

theorem puts_cons (st : ArgState) (c : UInt8) (cs : Bytes) :
    st.puts (c :: cs) = (st.put c).puts cs := rfl

@[simp] theorem puts_name (st : ArgState) (cs : Bytes) : (st.puts cs).name = st.name := by
  induction cs generalizing st with
  | nil => rfl
  | cons c cs ih => exact ih (st.put c)

@[simp] theorem puts_args (st : ArgState) (cs : Bytes) : (st.puts cs).args = st.args := by
  induction cs generalizing st with
  | nil => rfl
  | cons c cs ih => exact ih (st.put c)

@[simp] theorem puts_cur (st : ArgState) (cs : Bytes) : (st.puts cs).cur = st.cur ++ cs := by
  induction cs generalizing st with
  | nil => exact (append_nil _).symm
  | cons c cs ih =>
    rw [puts_cons, ih, put, append_assoc]
    rfl

theorem puts_hash_of_name (st : ArgState) (h : st.name = none) (cs : Bytes) :
    (st.puts cs).hash = cs.foldl httpFieldHashChar st.hash := by
  induction cs generalizing st with
  | nil => rfl
  | cons c cs ih =>
    rw [puts_cons, ih (st.put c) h, foldl_cons, put, if_pos (by rw [h]; rfl)]

theorem puts_hash_of_value (hash : UInt32) (name cur decoded : Bytes) (args : List NameValue)
    (cs : Bytes) : (puts ⟨hash, some name, cur, decoded, args⟩ cs).hash = hash := by
  induction cs generalizing cur decoded with
  | nil => rfl
  | cons c cs ih => exact ih (cur ++ [c]) (decoded ++ [c])

/-- In a value an equals sign is a byte like any other. -/
theorem equals_of_value (h : st.name ≠ none) : st.equals = st.put 0x3D := by
  obtain ⟨name, hname⟩ := Option.ne_none_iff_exists'.mp h
  rw [equals, put, hname]
  rfl

end ArgState

def NoEscape (s : Bytes) : Prop :=
  ∀ hi lo t, s = hi :: lo :: t → hexDigit hi = none ∨ hexDigit lo = none

theorem escape_induction {motive : Bytes → Prop} (nil : motive [])
    (escape : ∀ hi lo d0 d1 s, hexDigit hi = some d0 → hexDigit lo = some d1 → motive s →
      motive (0x25 :: hi :: lo :: s))
    (percent : ∀ s, NoEscape s → motive s → motive (0x25 :: s))
    (plain : ∀ c s, c ≠ 0x25 → motive s → motive (c :: s)) (s : Bytes) : motive s := by
  fun_induction argDecode s with
  | case1 => exact nil
  | case2 hi lo s d0 d1 h1 h0 ih => exact escape hi lo d0 d1 s h0 h1 ih
  | case3 hi lo s hbad ih =>
    refine percent _ ?_ ih
    rintro hi' lo' t ⟨⟩
    cases h0 : hexDigit hi with
    | none => exact .inl rfl
    | some d0 => ?_
    cases h1 : hexDigit lo with
    | none => exact .inr rfl
    | some d1 => exact absurd h1 (hbad d0 d1 h0)
  | case4 c s hshort ih =>
    by_cases hc : c = 0x25
    · subst hc
      exact percent s (fun hi lo t ht => absurd ht (hshort hi lo t rfl)) ih
    · exact plain c s hc ih

theorem argLoop_escape (st : ArgState) {hi lo d0 d1 : UInt8} (h0 : hexDigit hi = some d0)
    (h1 : hexDigit lo = some d1) (s : Bytes) :
    argLoop st (0x25 :: hi :: lo :: s) = argLoop (st.put ((d0 <<< 4) + d1)) s := by
  rw [argLoop, h0, h1]

variable {s : Bytes}

theorem argLoop_percent (st : ArgState) (h : NoEscape s) :
    argLoop st (0x25 :: s) = argLoop (st.put 0x25) s := by
  match s, h with
  | [], _ => rfl
  | [_], _ => rfl
  | hi :: lo :: t, h =>
    rw [argLoop]
    split
    · rcases h hi lo t rfl with hnone | hnone <;> simp_all
    · rfl

theorem argLoop_plain (st : ArgState) {c : UInt8} (hc : c ≠ 0x25) (s : Bytes) : argLoop st (c :: s)
      = if c = 0x3D then argLoop st.equals s
        else if c = 0x26 then argLoop st.ampersand s
        else argLoop (st.put (if c = 0x2B then 0x20 else c)) s := by
  rw [argLoop]
  rintro hi lo t rfl
  exact absurd rfl hc

theorem argDecode_escape {hi lo d0 d1 : UInt8} (h0 : hexDigit hi = some d0)
    (h1 : hexDigit lo = some d1) (s : Bytes) :
    argDecode (0x25 :: hi :: lo :: s) = ((d0 <<< 4) + d1) :: argDecode s := by
  rw [argDecode, h0, h1]

theorem argDecode_percent (h : NoEscape s) : argDecode (0x25 :: s) = 0x25 :: argDecode s := by
  match s, h with
  | [], _ => rfl
  | [_], _ => rfl
  | hi :: lo :: t, h =>
    rw [argDecode]
    split
    · rcases h hi lo t rfl with hnone | hnone <;> simp_all
    · rfl

theorem argDecode_plain {c : UInt8} (hc : c ≠ 0x25) (s : Bytes) :
    argDecode (c :: s) = (if c = 0x2B then 0x20 else c) :: argDecode s := by
  rw [argDecode]
  rintro hi lo t rfl
  exact absurd rfl hc

theorem NoEscape.append (h : NoEscape s) {sep : UInt8} (hsep : hexDigit sep = none) (b : Bytes) :
    NoEscape (s ++ sep :: b) := by
  rintro hi lo t heq
  match s, h, heq with
  | [], _, heq =>
    cases heq
    exact .inl hsep
  | [_], _, heq =>
    cases heq
    exact .inr hsep
  | hi' :: lo' :: _, h, heq =>
    cases heq
    exact h _ _ _ rfl

theorem argLoop_append (st : ArgState) (a : Bytes) {sep : UInt8} (hsep : hexDigit sep = none)
    (b : Bytes) : argLoop st (a ++ sep :: b) = argLoop (argLoop st a) (sep :: b) := by
  induction a using escape_induction generalizing st with
  | nil => rfl
  | escape hi lo d0 d1 s h0 h1 ih =>
    rw [cons_append, cons_append, cons_append, argLoop_escape st h0 h1, argLoop_escape st h0 h1, ih]
  | percent s hs ih =>
    rw [cons_append, argLoop_percent st (hs.append hsep b), argLoop_percent st hs, ih]
  | plain c s hc ih => ?_
  rw [cons_append, argLoop_plain st hc, argLoop_plain st hc]
  split
  · exact ih _
  split
  · exact ih _
  · exact ih _

/-- A piece of a name, or of a value, is decoded. -/
theorem argLoop_eq_puts (st : ArgState) {a : Bytes} (hamp : 0x26 ∉ a)
    (heq : st.name = none → 0x3D ∉ a) : argLoop st a = st.puts (argDecode a) := by
  induction a using escape_induction generalizing st with
  | nil => rfl
  | escape hi lo d0 d1 s h0 h1 ih =>
    simp only [mem_cons, not_or] at hamp heq
    rw [argLoop_escape st h0 h1, argDecode_escape h0 h1, ArgState.puts_cons]
    exact ih _ hamp.2.2.2 fun hn => (heq hn).2.2.2
  | percent s hs ih =>
    simp only [mem_cons, not_or] at hamp heq
    rw [argLoop_percent st hs, argDecode_percent hs, ArgState.puts_cons]
    exact ih _ hamp.2 fun hn => (heq hn).2
  | plain c s hc ih => ?_
  simp only [mem_cons, not_or] at hamp heq
  rw [argLoop_plain st hc, argDecode_plain hc, ArgState.puts_cons, if_neg (Ne.symm hamp.1)]
  split
  case isFalse => exact ih _ hamp.2 fun hn => (heq hn).2
  case isTrue heqc =>
    -- an equals sign in a value
    subst heqc
    have hvalue : st.name ≠ none := fun hn => (heq hn).1 rfl
    rw [ArgState.equals_of_value hvalue]
    exact ih _ hamp.2 fun hn => (heq hn).2

structure ArgState.Fresh (st : ArgState) : Prop where
  hash : st.hash = httpFieldHashInit
  name : st.name = none
  cur : st.cur = []

variable {piece : Bytes}

theorem argLoop_piece (h : st.Fresh) (hamp : 0x26 ∉ piece) : (argLoop st piece).args = st.args ∧
      (argLoop st piece).argument = (argumentOf piece).toList := by
  by_cases hmem : 0x3D ∈ piece
  · obtain ⟨a, b, rfl, ha⟩ := eq_append_cons_of_mem hmem
    obtain ⟨htake, hdrop⟩ := span_sep ha b
    simp only [mem_append, mem_cons, not_or] at hamp
    have hloop : argLoop st (a ++ 0x3D :: b)
        = ((st.puts (argDecode a)).equals).puts (argDecode b) := by
      have hne : (st.puts (argDecode a)).equals.name ≠ none := by
        rw [ArgState.equals, ArgState.puts_name, h.name]
        nofun
      rw [argLoop_append st _ (by decide), argLoop_eq_puts st hamp.1 fun _ => ha,
        argLoop_plain _ (by decide), if_pos rfl, argLoop_eq_puts _ hamp.2.2 fun hn => absurd hn hne]
    rw [hloop, ArgState.equals, ArgState.puts_name, h.name]
    refine ⟨by rw [ArgState.puts_args, ArgState.puts_args], ?_⟩
    rw [ArgState.argument, ArgState.puts_name, argumentOf, htake, hdrop,
      ArgState.puts_hash_of_value]
    simp only [ArgState.puts_cur, h.cur, nil_append, ArgState.puts_hash_of_name st h.name,
      h.hash, drop_one, tail_cons]
    split
    · rfl
    · rfl
  -- the whole piece is a name
  have hall : ∀ c ∈ piece, (c != 0x3D) = true := fun c hc =>
    bne_iff_ne.mpr fun hce => hmem (hce ▸ hc)
  rw [argLoop_eq_puts st hamp fun _ => hmem]
  refine ⟨ArgState.puts_args _ _, ?_⟩
  rw [ArgState.argument, ArgState.puts_name, h.name, argumentOf,
    takeWhile_eq_self_iff.mpr hall, dropWhile_eq_nil_iff.mpr hall]
  simp only [ArgState.puts_cur, h.cur, nil_append, ArgState.puts_hash_of_name st h.name,
    h.hash, drop_nil, argDecode, and_true]
  split
  · rfl
  · rfl

/-- **The arguments of a query.** -/
theorem argLoop_arguments (h : st.Fresh) (query : Bytes) :
    (argLoop st query).args ++ (argLoop st query).argument = st.args ++ arguments query := by
  induction query using sep_induction 0x26 generalizing st with
  | last piece hpiece =>
    obtain ⟨hargs, harg⟩ := argLoop_piece h hpiece
    rw [hargs, harg, arguments, (splitOn_sep hpiece).1]
    cases hq : argumentOf piece <;> simp [hq]
  | sep piece rest hpiece ih => ?_
  obtain ⟨hargs, harg⟩ := argLoop_piece h hpiece
  have hloop : argLoop st (piece ++ 0x26 :: rest)
      = argLoop (argLoop st piece).ampersand rest := by
    rw [argLoop_append st _ (by decide), argLoop_plain _ (by decide), if_neg (by decide),
      if_pos rfl]
  have hrest := @ih (argLoop st piece).ampersand ⟨rfl, rfl, rfl⟩
  rw [hloop, hrest, arguments, arguments, (splitOn_sep hpiece).2, ArgState.ampersand, hargs, harg]
  cases hq : argumentOf piece <;> simp [hq]

theorem argumentsParse_fst (query : Option Bytes) :
    (argumentsParse query).1 = query.elim [] arguments := by
  cases query with
  | none => rfl
  | some query => exact argLoop_arguments ⟨rfl, rfl, rfl⟩ query

/-! ### Cookies -/

/-- `nxt_http_cookie`: blanks behind a value are dropped. -/
def cookie (name value : Bytes) : NameValue := .ofPair name (value.rdropWhile (· == 0x20))

/-- The loop of `nxt_http_cookie_parse`: `cur` is what stands from `start` to `p`. -/
def cookieLoop : Option Bytes → Bytes → Bytes → List NameValue
  | name, cur, [] => name.elim [] fun name => [cookie name cur]
  | name, cur, c :: s =>
    if c = 0x3D ∧ name = none then cookieLoop (some (cur.dropWhile (· == 0x20))) [] s
    else if c = 0x3B then
      name.elim [] (fun name => [cookie name cur]) ++ cookieLoop none [] s
    else cookieLoop name (cur ++ [c]) s

def cookieParse (line : Bytes) : List NameValue := cookieLoop none [] line

/-- A piece with an equals sign is a cookie; blanks before its name are dropped. -/
def cookieOf (piece : Bytes) : Option NameValue :=
  if 0x3D ∈ piece then
    some (cookie ((piece.takeWhile (· != 0x3D)).dropWhile (· == 0x20))
      ((piece.dropWhile (· != 0x3D)).drop 1))
  else none

theorem cookieLoop_value (name cur : Bytes) (h : 0x3B ∉ piece) (s : Bytes) :
    cookieLoop (some name) cur (piece ++ s) = cookieLoop (some name) (cur ++ piece) s := by
  induction piece generalizing cur with
  | nil => rw [nil_append, append_nil]
  | cons c piece ih => ?_
  rw [mem_cons, not_or] at h
  rw [cons_append, cookieLoop, if_neg (by simp), if_neg (Ne.symm h.1), ih _ h.2, append_assoc]
  rfl

theorem cookieLoop_name (cur : Bytes) (h : 0x3B ∉ piece) (heq : 0x3D ∉ piece) (s : Bytes) :
    cookieLoop none cur (piece ++ s) = cookieLoop none (cur ++ piece) s := by
  induction piece generalizing cur with
  | nil => rw [nil_append, append_nil]
  | cons c piece ih => ?_
  rw [mem_cons, not_or] at h heq
  rw [cons_append, cookieLoop, if_neg (fun hc => heq.1 hc.1.symm), if_neg (Ne.symm h.1),
    ih _ h.2 heq.2, append_assoc]
  rfl

theorem cookieLoop_piece (h : 0x3B ∉ piece) (s : Bytes) :
    ∃ name cur, cookieLoop none [] (piece ++ s) = cookieLoop name cur s ∧
      name.elim [] (fun name => [cookie name cur]) = (cookieOf piece).toList := by
  by_cases hmem : 0x3D ∈ piece
  · rw [cookieOf, if_pos hmem]
    obtain ⟨a, b, rfl, ha⟩ := eq_append_cons_of_mem hmem
    obtain ⟨htake, hdrop⟩ := span_sep ha b
    simp only [mem_append, mem_cons, not_or] at h
    refine ⟨some (a.dropWhile (· == 0x20)), b, ?_, by rw [htake, hdrop]; rfl⟩
    rw [append_assoc, cookieLoop_name [] h.1 ha, nil_append, cons_append,
      cookieLoop, if_pos ⟨rfl, rfl⟩, cookieLoop_value _ _ h.2.2, nil_append]
  refine ⟨none, [] ++ piece, cookieLoop_name [] h hmem s, ?_⟩
  rw [cookieOf, if_neg hmem]
  rfl

/-- **The cookies of a line.** -/
theorem cookieParse_eq (line : Bytes) :
    cookieParse line = (line.splitOn 0x3B).filterMap cookieOf := by
  induction line using sep_induction 0x3B with
  | last piece hpiece =>
    obtain ⟨name, cur, hloop, hcookie⟩ := cookieLoop_piece hpiece []
    rw [append_nil] at hloop
    rw [cookieParse, hloop, cookieLoop, hcookie, (splitOn_sep hpiece).1]
    cases hq : cookieOf piece <;> simp [hq]
  | sep piece rest hpiece ih => ?_
  obtain ⟨name, cur, hloop, hcookie⟩ := cookieLoop_piece hpiece (0x3B :: rest)
  rw [cookieParse, hloop, cookieLoop, if_neg (by simp), if_pos rfl, hcookie,
    (splitOn_sep hpiece).2, ← cookieParse, ih]
  cases hq : cookieOf piece <;> simp [hq]

end FreeUnit
