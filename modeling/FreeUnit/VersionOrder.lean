/-
The order of versions (`nxt_strverscmp`).

Strings end in a NUL.  Behind their common bytes two strings are compared by the
state of a scan: in a run of digits by the length of the run, behind zeros as a
fraction, and otherwise by the byte.

* `State.key` — the comparison is that of keys in the lexicographic order;
* `strverscmp_order` — so it is a total order.
-/
import FreeUnit.Bytes

namespace FreeUnit.Versions

open List

inductive State where
  | str
  | num
  | zero
  | frac

/-- The state behind a byte of both strings. -/
def State.next (state : State) (c : UInt8) : State :=
  if isDigit c = false then .str
  else
    match state with
    | .str => if c ≠ 0x30 then .num else .zero
    | .zero => if c ≠ 0x30 then .frac else .zero
    | state => state

/-- The loop of `st_num`. -/
def versNum (diff : ℤ) : Bytes → Bytes → ℤ
  | c1 :: s1, c2 :: s2 =>
    if isDigit c1 && isDigit c2 then versNum diff s1 s2
    else if isDigit c1 then 1
    else if isDigit c2 then -1
    else diff
  -- not reached: a string has a NUL at its end
  | c1 :: _, [] => if isDigit c1 then 1 else diff
  | [], c2 :: _ => if isDigit c2 then -1 else diff
  | [], [] => diff

/-- The answer for strings that start with different bytes. -/
def versDiffer (state : State) (c1 : UInt8) (s1 : Bytes) (c2 : UInt8) (s2 : Bytes) : ℤ :=
  let diff : ℤ := c1.toNat - c2.toNat
  match state with
  | .str => if c1 - 0x31 > 8 ∨ c2 - 0x31 > 8 then diff else versNum diff s1 s2
  | .num => versNum diff (c1 :: s1) (c2 :: s2)
  | .zero =>
    if c1 = 0x30 ∨ c2 = 0 then -1
    else if c2 = 0x30 ∨ c1 = 0 then 1
    else diff
  | .frac => diff

def strverscmp : State → Bytes → Bytes → ℤ
  | state, c1 :: s1, c2 :: s2 =>
    if c1 ≠ c2 then versDiffer state c1 s1 c2 s2
    else if c1 = 0 then 0
    else strverscmp (state.next c1) s1 s2
  | _, _, _ => 0

/-- The digits that a string starts with. -/
def run (s : Bytes) : ℕ := (s.takeWhile isDigit).length

def State.weight : State → UInt8 → ℕ
  | .str, c => if c - 0x31 > 8 then c.toNat else 0x31
  | .zero, c => if c = 0x30 then 0 else if c = 0 then 256 else c.toNat
  | _, c => c.toNat

def keyFrom : State → Bytes → List ℕ
  | _, [] => []
  | .str, c :: s =>
    State.str.weight c ::
      if c - 0x31 > 8 then keyFrom (State.str.next c) s else run s :: c.toNat :: keyFrom .num s
  | state, c :: s => state.weight c :: keyFrom (state.next c) s

/-- In a run of digits its length goes first. -/
def State.key : State → Bytes → List ℕ
  | .num, s => run s :: keyFrom .num s
  | state, s => keyFrom state s

variable {state : State} {c d : UInt8} {x y a b : Bytes}

/-- An answer with the sign of a comparison. -/
def Compares (diff : ℤ) (k l : List ℕ) : Prop := (diff < 0 ↔ k < l) ∧ (0 < diff ↔ l < k)

theorem run_cons : run (c :: x) = if isDigit c then run x + 1 else 0 := by
  rw [run, takeWhile_cons]
  split_ifs <;> rfl

theorem digit_facts : ∀ c : UInt8, (c - 0x31 > 8 ↔ c.toNat < 0x31 ∨ 0x39 < c.toNat) ∧
    (isDigit c = true ↔ 0x30 ≤ c.toNat ∧ c.toNat ≤ 0x39) := by decide +kernel

theorem versNum_eq (diff : ℤ) (x y : Bytes) : versNum diff x y =
    if run y < run x then 1 else if run x < run y then -1 else diff := by
  have hnil : run [] = 0 := rfl
  fun_induction versNum diff x y <;> simp_all [run_cons]

theorem key_cons_lt : state.key (c :: x) < state.key (c :: y) ↔
    (state.next c).key x < (state.next c).key y := by
  obtain ⟨h1, h2⟩ := digit_facts c
  have h3 : c = 0x30 ↔ c.toNat = 0x30 := UInt8.toNat_inj.symm
  cases state <;> by_cases hd : isDigit c = true <;> by_cases hz : c = 0x30 <;>
    simp_all [State.key, keyFrom, State.next, run_cons, cons_lt_cons_iff]
  · rw [if_neg (by omega), if_neg (by omega)]
    simp [cons_lt_cons_iff]
  · rw [if_pos (by omega), if_pos (by omega)]

theorem strverscmp_differ {P : Prop} (h : c ≠ d) : (strverscmp state (c :: x) (d :: y) = 0 → P) ∧
    Compares (strverscmp state (c :: x) (d :: y)) (state.key (c :: x)) (state.key (d :: y)) := by
  have hne : c.toNat ≠ d.toNat := fun he => h (UInt8.toNat_inj.mp he)
  have hc := c.toNat_lt
  have hd := d.toNat_lt
  have h0 (e : UInt8) : (e = 0x30 ↔ e.toNat = 0x30) ∧ (e = 0 ↔ e.toNat = 0) :=
    ⟨UInt8.toNat_inj.symm, UInt8.toNat_inj.symm⟩
  rw [strverscmp, if_pos h]
  cases state <;>
    simp only [versDiffer, State.key, keyFrom, State.weight, versNum_eq, Compares,
      cons_lt_cons_iff, digit_facts, h0] <;>
    (try split_ifs) <;> simp_all [cons_lt_cons_iff] <;> omega

/-- **The comparison is that of the keys**, and strings that it takes for equal are. -/
theorem strverscmp_compares (ha : 0 ∉ a) (hb : 0 ∉ b) :
    (strverscmp state (a ++ [0]) (b ++ [0]) = 0 → a = b) ∧
    Compares (strverscmp state (a ++ [0]) (b ++ [0])) (state.key (a ++ [0]))
      (state.key (b ++ [0])) := by
  induction a generalizing b state with
  | nil =>
    cases b with
    | nil => simp [strverscmp, Compares]
    | cons d b => exact strverscmp_differ (ne_of_not_mem_cons hb)
  | cons c a ih => ?_
  have hc : c ≠ 0 := (ne_of_not_mem_cons ha).symm
  cases b with
  | nil => exact strverscmp_differ hc
  | cons d b => ?_
  by_cases h : c = d
  · subst h
    have := @ih (state.next c) b (not_mem_of_not_mem_cons ha) (not_mem_of_not_mem_cons hb)
    simpa [strverscmp, hc, Compares, key_cons_lt] using this
  · exact strverscmp_differ h

/-- **Versions are totally ordered.** -/
theorem strverscmp_order (a b c : {s : Bytes // 0 ∉ s}) :
    let cmp (a b : {s : Bytes // 0 ∉ s}) := strverscmp .str (a.1 ++ [0]) (b.1 ++ [0])
    (cmp a b < 0 ↔ 0 < cmp b a) ∧ (cmp a b ≤ 0 → cmp b c ≤ 0 → cmp a c ≤ 0) ∧
      (cmp a b = 0 ↔ a = b) := by
  intro cmp
  have hcmp (a b) : _ ∧ Compares (cmp a b) _ _ := strverscmp_compares a.2 b.2
  refine ⟨(hcmp a b).2.1.trans (hcmp b a).2.2.symm, ?_, fun h => Subtype.ext ((hcmp a b).1 h), ?_⟩
  · simp only [← not_lt, (hcmp _ _).2.2]
    exact fun h1 h2 => not_lt.mpr ((not_lt.mp h1).trans (not_lt.mp h2))
  · rintro rfl
    have := (hcmp a a).2
    rw [Compares, iff_false_right (lt_irrefl _), iff_false_right (lt_irrefl _)] at this
    omega

end FreeUnit.Versions
