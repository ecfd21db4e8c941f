/-
Two sequences woven into one.

A sequence with gaps is filled, gap by gap, with the elements of another one.
What comes before the first gap that stays open is the woven sequence.

* `weave_concat_some`, `weave_concat_none`, `weave_fill` — how it grows.
-/
import Mathlib.Data.List.Basic

namespace FreeUnit

open List

variable {α : Type}

/-- The sequence `q` with its gaps filled from `s`, up to the first open gap. -/
def weave : List (Option α) → List α → List α
  | [], _ => []
  | some a :: q, s => a :: weave q s
  | none :: _, [] => []
  | none :: q, a :: s => a :: weave q s

def gaps (q : List (Option α)) : ℕ := q.countP Option.isNone

@[simp] theorem gaps_nil : gaps ([] : List (Option α)) = 0 := rfl

@[simp] theorem gaps_cons_some (a : α) (q : List (Option α)) : gaps (some a :: q) = gaps q := by
  simp [gaps]

@[simp] theorem gaps_cons_none (q : List (Option α)) :
    gaps ((none : Option α) :: q) = gaps q + 1 := by
  simp [gaps]

@[simp] theorem gaps_append (q r : List (Option α)) : gaps (q ++ r) = gaps q + gaps r := by
  simp [gaps]

/-- More of either sequence only adds at the end. -/
theorem weave_mono {q q' : List (Option α)} {s s' : List α} (hq : q <+: q') (hs : s <+: s') :
    weave q s <+: weave q' s' := by
  induction q generalizing q' s s' with
  | nil => exact nil_prefix
  | cons o q ih => ?_
  obtain ⟨t, rfl⟩ := hq
  have htail : q <+: q ++ t := prefix_append q t
  cases o with
  | some a => exact cons_prefix_cons.mpr ⟨rfl, ih htail hs⟩
  | none => ?_
  cases s with
  | nil => exact nil_prefix
  | cons b s => ?_
  obtain ⟨u, rfl⟩ := hs
  exact cons_prefix_cons.mpr ⟨rfl, ih htail (prefix_append s u)⟩

/-- With all gaps filled, more of both sequences is woven behind them. -/
theorem weave_append {q r : List (Option α)} {s t : List α} (h : gaps q = s.length) :
    weave (q ++ r) (s ++ t) = weave q s ++ weave r t := by
  induction q generalizing s with
  | nil =>
    cases s with
    | nil => rfl
    | cons b s => simp at h
  | cons o q ih => ?_
  cases o with
  | some b =>
    rw [gaps_cons_some] at h
    simp [weave, ih h]
  | none => ?_
  cases s with
  | nil => simp at h
  | cons b s => ?_
  have hq : gaps q = s.length := by simpa using h
  simp [weave, ih hq]

/-- With all gaps filled an element follows at the end. -/
theorem weave_concat_some {q : List (Option α)} {s : List α} (h : gaps q = s.length) (a : α) :
    weave (q ++ [some a]) s = weave q s ++ [a] := by
  have happend := @weave_append α q [some a] s [] h
  rwa [append_nil] at happend

theorem weave_concat_none {q : List (Option α)} {s : List α} (h : gaps q = s.length) :
    weave (q ++ [none]) s = weave q s := by
  have happend := @weave_append α q [none] s [] h
  rwa [append_nil, weave, append_nil] at happend

/-- The next element fills the open gap at the end. -/
theorem weave_fill {q : List (Option α)} {s : List α} (h : gaps q = s.length) (a : α) :
    weave (q ++ [none]) (s ++ [a]) = weave q s ++ [a] := weave_append h

/-- As many elements as there are gaps have filled them. -/
theorem mem_weave_of_mem_take {q : List (Option α)} {s : List α} {n : ℕ} (h : n ≤ gaps q) {a : α}
    (ha : a ∈ s.take n) : a ∈ weave q s := by
  induction q generalizing s n with
  | nil =>
    have hn : n = 0 := by simpa using h
    simp [hn] at ha
  | cons o q ih => ?_
  cases o with
  | some b =>
    rw [gaps_cons_some] at h
    exact mem_cons_of_mem _ (ih h ha)
  | none => ?_
  cases s with
  | nil => simp at ha
  | cons b s => ?_
  cases n with
  | zero => simp at ha
  | succ n => ?_
  rw [take_succ_cons] at ha
  rcases mem_cons.mp ha with rfl | ha
  · exact mem_cons_self
  have hn : n ≤ gaps q := by simpa using h
  exact mem_cons_of_mem _ (ih hn ha)

/-- Gaps that are filled in the order of what they were left for. -/
theorem weave_prefix_map {β : Type} {slot : β → Option α} {own : β → α} {q : List β} {s : List α}
    (hown : ∀ b a, slot b = some a → own b = a)
    (hs : s <+: (q.filter fun b => (slot b).isNone).map own) :
    weave (q.map slot) s <+: q.map own := by
  induction q generalizing s with
  | nil => exact nil_prefix
  | cons b q ih => ?_
  cases hb : slot b with
  | some a =>
    have hne : ((slot b).isNone) = false := by simp [hb]
    rw [filter_cons_of_neg (by simp [hne])] at hs
    rw [map_cons, map_cons, hb, hown b a hb]
    exact cons_prefix_cons.mpr ⟨rfl, ih hs⟩
  | none => ?_
  rw [filter_cons_of_pos (by simp [hb]), map_cons] at hs
  rw [map_cons, map_cons, hb]
  cases s with
  | nil => exact nil_prefix
  | cons a s => ?_
  obtain ⟨rfl, htail⟩ := cons_prefix_cons.mp hs
  exact cons_prefix_cons.mpr ⟨rfl, ih htail⟩

end FreeUnit
