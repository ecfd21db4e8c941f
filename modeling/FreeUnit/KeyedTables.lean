/-
Tables of four-byte keys: `nxt_murmur_hash2` and what rests on it.

The tests of the tables of pending calls (`nxt_rpc_reg_test`) and of cached
variables (`nxt_var_cache_test`) accept every entry, so an entry is found by the
32 bits of its hash alone.

* `murmurHash2Data_injective` — four bytes are known by their hash;
* `keyed_tables` — so the tables answer as if they compared the keys.
-/
import FreeUnit.VarCache

namespace FreeUnit.Var

/-- `p[0] | p[1] << 8 | p[2] << 16 | p[3] << 24` -/
def word (p0 p1 p2 p3 : UInt8) : UInt32 :=
  p0.toUInt32 ||| p1.toUInt32 <<< 8 ||| p2.toUInt32 <<< 16 ||| p3.toUInt32 <<< 24

/-- The loop of `nxt_murmur_hash2` and the bytes behind it. -/
def murmurLoop (m : UInt32) : UInt32 → Bytes → UInt32
  | h, p0 :: p1 :: p2 :: p3 :: p =>
    let k := word p0 p1 p2 p3 * m
    let k := k ^^^ (k >>> 24)
    let k := k * m
    murmurLoop m (h * m ^^^ k) p
  | h, [p0, p1, p2] =>
    (h ^^^ p2.toUInt32 <<< 16 ^^^ p1.toUInt32 <<< 8 ^^^ p0.toUInt32) * m
  | h, [p0, p1] => (h ^^^ p1.toUInt32 <<< 8 ^^^ p0.toUInt32) * m
  | h, [p0] => (h ^^^ p0.toUInt32) * m
  | h, [] => h

/-- `nxt_murmur_hash2`, of any length. -/
def murmurHash2Data (data : Bytes) : UInt32 :=
  let m : UInt32 := 0x5BD1E995
  let h := murmurLoop m (UInt32.ofNat data.length) data
  let h := h ^^^ (h >>> 13)
  let h := h * m
  h ^^^ (h >>> 15)

theorem murmurHash2Data_four (p0 p1 p2 p3 : UInt8) :
    murmurHash2Data [p0, p1, p2, p3] = murmurHash2 (word p0 p1 p2 p3) := rfl

theorem toNat_word (p0 p1 p2 p3 : UInt8) : (word p0 p1 p2 p3).toNat =
    2 ^ 24 * p3.toNat + (2 ^ 16 * p2.toNat + (2 ^ 8 * p1.toNat + p0.toNat)) := by
  have h0 := p0.toNat_lt
  have h1 := p1.toNat_lt
  have h2 := p2.toNat_lt
  have h3 := p3.toNat_lt
  rw [Nat.two_pow_add_eq_or_of_lt (show _ < 2 ^ 24 by omega),
    Nat.two_pow_add_eq_or_of_lt (show _ < 2 ^ 16 by omega),
    Nat.two_pow_add_eq_or_of_lt (show _ < 2 ^ 8 by omega)]
  have hshift (p n : ℕ) (h : 2 ^ n * p < 2 ^ 32) : p <<< n % 2 ^ 32 = 2 ^ n * p := by
    rw [Nat.shiftLeft_eq, Nat.mul_comm, Nat.mod_eq_of_lt h]
  simp only [word, UInt32.toNat_or, UInt32.toNat_shiftLeft, UInt8.toNat_toUInt32,
    UInt32.reduceToNat, Nat.reduceMod]
  rw [hshift _ _ (by omega), hshift _ _ (by omega), hshift _ _ (by omega)]
  ac_rfl

theorem murmurHash2Data_injective :
    Function.Injective fun key : {key : Bytes // key.length = 4} => murmurHash2Data key.1 := by
  rintro ⟨a, ha⟩ ⟨b, hb⟩ h
  obtain ⟨a0, a1, a2, a3, rfl⟩ := List.length_eq_four.mp ha
  obtain ⟨b0, b1, b2, b3, rfl⟩ := List.length_eq_four.mp hb
  simp only [murmurHash2Data_four] at h
  have hword := congrArg UInt32.toNat (murmurHash2_injective h)
  rw [toNat_word, toNat_word] at hword
  have hlt (p : UInt8) : p.toNat < 256 := p.toNat_lt
  have hbytes : a0 = b0 ∧ a1 = b1 ∧ a2 = b2 ∧ a3 = b3 := by
    simp only [← UInt8.toNat_inj]
    have ha := And.intro (hlt a0) (And.intro (hlt a1) (hlt a2))
    have hb := And.intro (hlt b0) (And.intro (hlt b1) (hlt b2))
    omega
  obtain ⟨rfl, rfl, rfl, rfl⟩ := hbytes
  rfl

/-! ### Tables -/

inductive TableOp (κ V : Type) where
  | insert (key : κ) (value : V)
  | find (key : κ)
  | delete (key : κ)

section

variable {κ κ' V : Type} [DecidableEq κ] [DecidableEq κ']

def TableOp.map (f : κ → κ') : TableOp κ V → TableOp κ' V
  | .insert key value => .insert (f key) value
  | .find key => .find (f key)
  | .delete key => .delete (f key)

/-- An operation and the value it hands over: an insert without replacement gives
the entry that is there. -/
def TableOp.step (table : κ → Option V) : TableOp κ V → Option V × (κ → Option V)
  | .insert key value =>
    match table key with
    | some old => (some old, table)
    | none => (none, Function.update table key (some value))
  | .find key => (table key, table)
  | .delete key => (table key, Function.update table key none)

def answers : (κ → Option V) → List (TableOp κ V) → List (Option V)
  | _, [] => []
  | table, op :: ops => (op.step table).1 :: answers (op.step table).2 ops

/-- A table of hashes answers as the table of keys, if no two keys share a hash. -/
theorem answers_map {f : κ → κ'} (hf : Function.Injective f) (table : κ' → Option V)
    (ops : List (TableOp κ V)) :
    answers table (ops.map (TableOp.map f)) = answers (table ∘ f) ops := by
  induction ops generalizing table with
  | nil => rfl
  | cons op ops ih => ?_
  have hupdate (key : κ) (value : Option V) :
      Function.update table (f key) value ∘ f = Function.update (table ∘ f) key value :=
    Function.update_comp_eq_of_injective _ hf _ _
  cases op with
  | find key => rw [List.map_cons, answers, answers, ih]; rfl
  | delete key =>
    rw [List.map_cons, answers, answers, ih]
    simp only [TableOp.map, TableOp.step, hupdate]
    rfl
  | insert key value => ?_
  rw [List.map_cons, answers, answers, ih]
  simp only [TableOp.map, TableOp.step, Function.comp_apply]
  cases table (f key) with
  | none => simp only [hupdate]
  | some old => rfl

end

/-- **Tables of four-byte keys.** -/
theorem keyed_tables {V : Type} :
    (∀ p0 p1 p2 p3, murmurHash2Data [p0, p1, p2, p3] = murmurHash2 (word p0 p1 p2 p3)) ∧
    Function.Injective (fun key : {key : Bytes // key.length = 4} => murmurHash2Data key.1) ∧
    ∀ ops : List (TableOp {key : Bytes // key.length = 4} V),
      answers (fun _ => none) (ops.map (.map fun key => murmurHash2Data key.1)) =
        answers (fun _ => none) ops :=
  ⟨murmurHash2Data_four, murmurHash2Data_injective, answers_map murmurHash2Data_injective _⟩

end FreeUnit.Var
